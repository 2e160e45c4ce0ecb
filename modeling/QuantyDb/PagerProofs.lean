import QuantyDb.PagerModel
import QuantyDb.CowHeap

/-! # A batch as a copy-on-write heap

    The pages a batch owns are the dirty ones.  The ids it has available are
    those past the end of the file, those in the reuse pool, and those that
    the unread part of the committed free list still lists.  `Sound` says that
    the free ids are what the free list promises: named once, inside the file,
    and nothing the batch wrote.

    `Work b L C b' L' C'` is what a call does that starts with the pages `C`
    and ends with the pages `C'`; `L` and `L'` are the unread parts of the
    free list before and after. -/

namespace QuantyPagerInv

open QuantyKey QuantyPage QuantyPager CowHeap List AssocList Batch Page

/-! ## Slots and pages of storage -/

theorem slot_writeMeta (st : Storage) {i j : Nat} (hi : i < 2) (hj : j < 2) (m : Meta) :
    (st.writeMeta i m).slot j = if j = i then some m else st.slot j := by
  obtain rfl | rfl : i = 0 ∨ i = 1 := by omega
  · obtain rfl | rfl : j = 0 ∨ j = 1 := by omega
    · rfl
    · rfl
  · obtain rfl | rfl : j = 0 ∨ j = 1 := by omega
    · rfl
    · rfl

theorem slot_writePages (st : Storage) (es : List (PageId × Sealed)) (i : Nat) :
    (st.writePages es).slot i = st.slot i := by
  induction es generalizing st with
  | nil => rfl
  | cons e rest ih => exact ih (st.writePage e.1 e.2)

/-- What the pages become depends on the pages alone. -/
theorem writePages_congr {st st' : Storage} (h : st.pages = st'.pages)
    (es : List (PageId × Sealed)) : (st.writePages es).pages = (st'.writePages es).pages := by
  induction es generalizing st st' with
  | nil => exact h
  | cons e rest ih => exact ih (congrArg (put e.1 e.2) h)

/-! ## Chains and what a batch accounts for -/

/-- The chain of free-list pages from a page on: each page with the ids it
    lists. -/
def Chain (p : Pager) : PageId → FreePages → Prop
  | c, [] => c = NIL_PAGE
  | c, (c', ids) :: L => c' = c ∧ c ≠ NIL_PAGE ∧ ids.length ≤ idsPerPage p.pageSize
      ∧ ∃ next, p.readPage c = .ok (.freeList next ids) ∧ Chain p next L

variable {L L' : FreePages} {b b' : Batch} {p : Page} {C : List (PageId × Page)}

/-- There is one chain from a page on. -/
theorem chain_unique {p : Pager} {c : PageId} (h : Chain p c L) (h' : Chain p c L') : L = L' := by
  induction L generalizing c L' with
  | nil =>
      cases L' with
      | nil => rfl
      | cons e rest => exact absurd h h'.2.1
  | cons e rest ih =>
      cases L' with
      | nil => exact absurd h' h.2.1
      | cons e' rest' =>
          obtain ⟨c₁, ids⟩ := e
          obtain ⟨c₂, ids'⟩ := e'
          obtain ⟨rfl, -, -, next, hread, hrest⟩ := h
          obtain ⟨rfl, -, -, next', hread', hrest'⟩ := h'
          have hpage := hread.symm.trans hread'
          injection hpage with hpage
          injection hpage with hnext hids
          subst hnext hids
          rw [ih hrest hrest']

/-- Ids that the batch may hand out, the ones past the end of the file apart. -/
def freeIds (b : Batch) (L : FreePages) : List PageId :=
  b.reusePool ++ L.flatMap Prod.snd

/-- Pages of the committed chain, unread and consumed. -/
def chainIds (b : Batch) (L : FreePages) : List PageId :=
  L.map Prod.fst ++ b.deferredFree

/-- **EVERY ID IS ACCOUNTED FOR**: the free ids and the pages of the old chain
    are named once, lie inside the committed file and are nothing the batch
    wrote. -/
structure Accounted (b : Batch) (L : FreePages) : Prop where
  chain : Chain b.pager b.chainCursor L
  nodup : (freeIds b L ++ chainIds b L).Nodup
  range : ∀ id ∈ freeIds b L ++ chainIds b L, 2 ≤ id ∧ id < b.base.pageCount
  unowned : ∀ id ∈ freeIds b L ++ chainIds b L, AssocList.get id b.dirty = none
  committed : b.base = b.pager.committed
  two : 2 ≤ b.base.pageCount
  grows : b.base.pageCount ≤ b.nextPage
  owned : ∀ id p, AssocList.get id b.dirty = some p → 2 ≤ id ∧ id < b.nextPage
  idle : b.touchedFreelist = false → b.reusePool = [] ∧ b.deferredFree = []

/-- **SOUNDNESS OF A BATCH**: the ids are accounted for, and a decoded copy is
    what the page beside it holds. -/
structure Sound (b : Batch) (L : FreePages) : Prop
    extends Accounted b L where
  kept : ∀ id n s, AssocList.get id b.nodes = some (n, s) →
    AssocList.get id b.dirty = some (.node n) ∧ s = n.encodedSize

/-- **THE FREE LIST OF A COMMITTED STATE**: a chain that reads, whose ids and
    whose own pages are named once and lie inside the file. -/
structure FreeListSound (p : Pager) (L : FreePages) : Prop where
  chain : Chain p p.committed.freelistRoot L
  nodup : (L.flatMap Prod.snd ++ L.map Prod.fst).Nodup
  range : ∀ id ∈ L.flatMap Prod.snd ++ L.map Prod.fst, 2 ≤ id ∧ id < p.committed.pageCount
  two : 2 ≤ p.committed.pageCount

/-- A batch starts sound. -/
theorem sound_begin {p : Pager} (h : FreeListSound p L) : Sound p.begin L := by
  have hids : freeIds p.begin L ++ chainIds p.begin L = L.flatMap Prod.snd ++ L.map Prod.fst := by
    simp [freeIds, chainIds, Pager.begin]
  refine ⟨⟨h.chain, hids ▸ h.nodup, hids ▸ h.range, fun _ _ => rfl, rfl, h.two, le_rfl, ?_,
    fun _ => ⟨rfl, rfl⟩⟩, ?_⟩
  · nofun
  · nofun

theorem freeListSound_initial (ps now : Nat) : FreeListSound (Pager.initial ps now) [] :=
  ⟨rfl, nodup_nil, nofun, le_rfl⟩

/-- What the batch sees, owns and has available. -/
def view (b : Batch) (L : FreePages) : View PageId Page where
  read id := (b.pageBytes id).toOption
  Owned id := b.owns id = true
  Avail id := b.nextPage ≤ id ∨ id ∈ freeIds b L

/-- What no call on a tree changes. -/
structure Stays (b b' : Batch) : Prop where
  pager : b'.pager = b.pager
  base : b'.base = b.base
  dataRoot : b'.dataRoot = b.dataRoot
  catalogRoot : b'.catalogRoot = b.catalogRoot
  freelistRoot : b'.freelistRoot = b.freelistRoot
  commitPage : b'.commitPage = b.commitPage
  refsRoot : b'.refsRoot = b.refsRoot
  freelistOverride : b'.freelistOverride = b.freelistOverride
  allowReuse : b'.allowReuse = b.allowReuse
  next : b.nextPage ≤ b'.nextPage

structure Work (b : Batch) (L : FreePages) (C : List (PageId × Page))
    (b' : Batch) (L' : FreePages) (C' : List (PageId × Page)) : Prop where
  sound : Sound b' L'
  stays : Stays b b'
  moves : Moves (view b L) C (view b' L') C'

theorem Stays.refl (b : Batch) : Stays b b :=
  ⟨rfl, rfl, rfl, rfl, rfl, rfl, rfl, rfl, rfl, le_rfl⟩

variable {b'' : Batch} {ns : List (PageId × (Node × Nat))} {q : Page}

theorem Stays.trans (h : Stays b b') (h' : Stays b' b'') : Stays b b'' :=
  ⟨h'.pager.trans h.pager, h'.base.trans h.base, h'.dataRoot.trans h.dataRoot,
    h'.catalogRoot.trans h.catalogRoot, h'.freelistRoot.trans h.freelistRoot,
    h'.commitPage.trans h.commitPage, h'.refsRoot.trans h.refsRoot,
    h'.freelistOverride.trans h.freelistOverride, h'.allowReuse.trans h.allowReuse,
    h.next.trans h'.next⟩

theorem Stays.pageSize (h : Stays b b') : b'.pageSize = b.pageSize :=
  congrArg Pager.pageSize h.pager

section Algebra

variable {b b' b'' : Batch} {L L' L'' : FreePages}
  {A B C C' C'' D : List (PageId × Page)}

theorem Work.refl (hs : Sound b L) (h : Holds (view b L) C) : Work b L C b L C :=
  ⟨hs, Stays.refl b, Moves.refl h⟩

theorem Work.trans (h : Work b L C b' L' C') (h' : Work b' L' C' b'' L'' C'') :
    Work b L C b'' L'' C'' :=
  ⟨h'.sound, h.stays.trans h'.stays, h.moves.trans h'.moves⟩

theorem Work.frame (h : Work b L C b' L' C') (hh : Holds (view b L) (C ++ D)) :
    Work b L (C ++ D) b' L' (C' ++ D) :=
  ⟨h.sound, h.stays, h.moves.frame hh⟩

theorem Work.frame_mid (h : Work b L C b' L' C') (hh : Holds (view b L) (A ++ (C ++ B))) :
    Work b L (A ++ (C ++ B)) b' L' (A ++ (C' ++ B)) :=
  ⟨h.sound, h.stays, h.moves.frame_mid hh⟩

theorem Work.perm (h : Work b L C b' L' C') (hp : C.Perm A) (hp' : C'.Perm B) :
    Work b L A b' L' B :=
  ⟨h.sound, h.stays, h.moves.perm hp hp'⟩

theorem Work.drop (h : Work b L C b' L' C') (hs : D.Sublist C') : Work b L C b' L' D :=
  ⟨h.sound, h.stays, h.moves.drop hs⟩

theorem Work.holds (h : Work b L C b' L' C') : Holds (view b' L') C' := h.moves.holds

end Algebra

/-! ## Reading -/

theorem owns_iff {id : PageId} : b.owns id = true ↔ ∃ p, AssocList.get id b.dirty = some p :=
  Option.isSome_iff_exists

theorem read_eq_some {id : PageId} : (view b L).read id = some p ↔ b.pageBytes id = .ok p := by
  show (b.pageBytes id).toOption = some p ↔ _
  cases b.pageBytes id <;> simp [Except.toOption]

/-- A page that is held reads as what is held. -/
theorem Holds.pageBytes (h : Holds (view b L) C) {id : PageId} (hm : (id, p) ∈ C) :
    b.pageBytes id = .ok p :=
  read_eq_some.mp (h.stored (id, p) hm)

theorem pageBytes_of_owned {id : PageId} (h : AssocList.get id b.dirty = some p) :
    b.pageBytes id = .ok p := by
  unfold pageBytes
  rw [h]

/-- A page that reads is past the meta slots. -/
theorem two_le_of_pageBytes (hs : Sound b L) {id : PageId} (h : b.pageBytes id = .ok p) :
    2 ≤ id := by
  unfold pageBytes at h
  split at h
  · next q hq => exact (hs.owned id q hq).1
  · split at h
    · nomatch h
    · lia

theorem ne_nil_of_pageBytes (hs : Sound b L) {id : PageId} (h : b.pageBytes id = .ok p) :
    id ≠ NIL_PAGE := by
  have := two_le_of_pageBytes hs h
  simp only [NIL_PAGE]
  lia

/-! ## Changes that no reader sees -/

/-- Recording touches the savepoint alone. -/
theorem record_eq (id : PageId) (b : Batch) :
    ∃ sp, b.record id = { b with savepoint := sp } := by
  unfold record
  split
  · exact ⟨b.savepoint, rfl⟩
  · split
    · exact ⟨b.savepoint, rfl⟩
    · exact ⟨_, rfl⟩

/-- A change to the savepoint and a loss of kept nodes. -/
theorem sound_quiet (h : Sound b L) (sp : Option Savepoint) (ns : List (PageId × (Node × Nat)))
    (hns : ∀ id x, AssocList.get id ns = some x →
      AssocList.get id b.nodes = some x ∨ AssocList.get id b.dirty = some (.node x.1)
        ∧ x.2 = x.1.encodedSize) : Sound { b with savepoint := sp, nodes := ns } L := by
  refine ⟨⟨h.chain, h.nodup, h.range, h.unowned, h.committed, h.two, h.grows, h.owned,
    h.idle⟩, ?_⟩
  intro id n s hn
  rcases hns id (n, s) hn with hold | hnew
  · exact h.kept id n s hold
  · exact hnew

theorem work_quiet (h : Sound b L) (hC : Holds (view b L) C) (sp : Option Savepoint)
    (ns : List (PageId × (Node × Nat))) (hns : ∀ id x, AssocList.get id ns = some x →
      AssocList.get id b.nodes = some x ∨ AssocList.get id b.dirty = some (.node x.1)
        ∧ x.2 = x.1.encodedSize) : Work b L C { b with savepoint := sp, nodes := ns } L C :=
  ⟨sound_quiet h sp ns hns, ⟨rfl, rfl, rfl, rfl, rfl, rfl, rfl, rfl, rfl, le_rfl⟩,
    Moves.refl (v := view b L) hC⟩

/-- Forgetting the kept copy of a page. -/
theorem get_del_nodes (id : PageId) :
    ∀ id' x, AssocList.get id' (del id b.nodes) = some x →
      AssocList.get id' b.nodes = some x := by
  intro id' x hx
  rw [get_del] at hx
  split at hx
  · nomatch hx
  · exact hx

/-! ## Taking a page id -/

section Take

variable {b : Batch} {L : FreePages}

/-- What pulling a page of the chain into the pool leaves alone: which ids are
    free and which are pages of the old chain. -/
structure Refilled (b : Batch) (L : FreePages) (b' : Batch)
    (L' : FreePages) : Prop where
  accounted : Accounted b' L'
  stays : Stays b b'
  dirty : b'.dirty = b.dirty
  nodes : b'.nodes = b.nodes
  savepoint : b'.savepoint = b.savepoint
  next : b'.nextPage = b.nextPage
  free : freeIds b' L' = freeIds b L
  chain_mem : ∀ x, x ∈ chainIds b' L' ↔ x ∈ chainIds b L
  untouched : b'.touchedFreelist = false → b' = b ∧ L' = L

/-- Pulling a page of the chain into the pool changes where ids are kept, not
    which ids are free. -/
theorem refillPool_refilled (h : Accounted b L) :
    ∃ L', Refilled b L b.refillPool L' := by
  unfold refillPool
  split
  · next hc =>
    obtain ⟨hpool, hcur⟩ := hc
    cases L with
    | nil => exact absurd h.chain hcur
    | cons e L' =>
        obtain ⟨c, ids⟩ := e
        obtain ⟨rfl, -, hlen, next, hread, hchain⟩ := h.chain
        have hdec : decodeFreeList b.pageSize b.chainCursor (.freeList next ids)
            = .ok (next, ids) := if_neg (not_lt.mpr hlen)
        rw [hread]
        simp only [hdec]
        -- the chain page itself moves from the chain to the deferred pages
        have hperm : (freeIds b ((b.chainCursor, ids) :: L')
              ++ chainIds b ((b.chainCursor, ids) :: L')).Perm
            ((b.reusePool ++ ids ++ L'.flatMap Prod.snd)
              ++ (L'.map Prod.fst ++ (b.deferredFree ++ [b.chainCursor]))) := by
          have hfree : freeIds b ((b.chainCursor, ids) :: L')
              = b.reusePool ++ ids ++ L'.flatMap Prod.snd := by simp [freeIds]
          rw [hfree, chainIds, map_cons, cons_append, ← append_assoc
            (L'.map Prod.fst)]
          exact (perm_append_singleton _ _).symm.append_left _
        refine ⟨L', ⟨hchain, hperm.nodup_iff.mp h.nodup, fun id hid => h.range id
          (hperm.mem_iff.mpr hid), fun id hid => h.unowned id (hperm.mem_iff.mpr hid),
          h.committed, h.two, h.grows, h.owned, nofun⟩,
          ⟨rfl, rfl, rfl, rfl, rfl, rfl, rfl, rfl, rfl, le_rfl⟩, rfl, rfl, rfl, rfl, ?_, ?_, ?_⟩
        · simp [freeIds]
        · intro x
          simp only [chainIds, map_cons, mem_append, mem_cons, not_mem_nil,
            or_false]
          tauto
        · nofun
  · exact ⟨L, h, Stays.refl b, rfl, rfl, rfl, rfl, rfl, fun _ => Iff.rfl, fun _ => ⟨rfl, rfl⟩⟩

/-- What a taken id is: available before, not after. -/
structure Taken (b : Batch) (L : FreePages) (id : PageId) (b' : Batch)
    (L' : FreePages) : Prop where
  accounted : Accounted b' L'
  stays : Stays b b'
  dirty : b'.dirty = b.dirty
  nodes : b'.nodes = b.nodes
  savepoint : b'.savepoint = b.savepoint
  avail : (view b L).Avail id
  gone : ¬ (view b' L').Avail id
  unlisted : id ∉ freeIds b' L' ++ chainIds b' L'
  mono : ∀ x, (view b' L').Avail x → (view b L).Avail x
  two : 2 ≤ id
  lt : id < b'.nextPage
  free_sub : ∀ x ∈ freeIds b' L', x ∈ freeIds b L
  free_left : ∀ x ∈ freeIds b L, x = id ∨ x ∈ freeIds b' L'
  chain_mem : ∀ x, x ∈ chainIds b' L' ↔ x ∈ chainIds b L
  untouched : b'.touchedFreelist = false →
    b'.toLedger = { b.toLedger with nextPage := b'.nextPage } ∧ L' = L
  filled : ∀ x, b.nextPage ≤ x → x < b'.nextPage → x = id

theorem Taken.sound {id : PageId} (ht : Taken b L id b' L') (h : Sound b L) : Sound b' L' := by
  refine ⟨ht.accounted, ?_⟩
  rw [ht.nodes, ht.dirty]
  exact h.kept

theorem extendFile_taken (h : Accounted b L) :
    Taken b L b.extendFile.1 b.extendFile.2 L := by
  have hout : b.nextPage ∉ freeIds b L ++ chainIds b L := by
    intro hm
    have := (h.range _ hm).2
    have := h.grows
    lia
  refine ⟨⟨h.chain, h.nodup, h.range, h.unowned, h.committed, h.two, ?_, ?_, h.idle⟩,
    ⟨rfl, rfl, rfl, rfl, rfl, rfl, rfl, rfl, rfl, Nat.le_succ _⟩, rfl, rfl, rfl, .inl le_rfl, ?_,
    hout, ?_, ?_, Nat.lt_succ_self _, fun _ hx => hx, fun _ hx => .inr hx, fun _ => Iff.rfl,
    fun _ => ⟨rfl, rfl⟩, fun x hle hlt => le_antisymm (Nat.lt_succ_iff.mp hlt) hle⟩
  · exact Nat.le_succ_of_le h.grows
  · intro id p hp
    exact ⟨(h.owned id p hp).1, Nat.lt_succ_of_lt (h.owned id p hp).2⟩
  · rintro (hle | hmem)
    · exact absurd hle (Nat.not_succ_le_self _)
    · exact hout (mem_append_left _ hmem)
  · rintro x (hle | hmem)
    · exact .inl (Nat.le_of_succ_le hle)
    · exact .inr hmem
  · exact le_trans h.two h.grows

/-- Taking the last id of the pool leaves the other free ids. -/
theorem popPool_taken (h : Accounted b L) {id : PageId} {init : List PageId}
    (hpool : b.reusePool = init ++ [id]) :
    Taken b L id { b with reusePool := init } L := by
  -- a pool that has an id to give was filled from the chain
  have htouched : b.touchedFreelist ≠ false := by
    intro hfalse
    exact absurd ((h.idle hfalse).1.symm.trans hpool) (by simp)
  have hfree : ∀ x, x ∈ freeIds b L ↔ x = id ∨ x ∈ init ++ L.flatMap Prod.snd := by
    intro x
    simp only [freeIds, hpool, mem_append, mem_singleton]
    tauto
  have hperm : (freeIds b L ++ chainIds b L).Perm
      (id :: ((init ++ L.flatMap Prod.snd) ++ chainIds b L)) := by
    rw [freeIds, hpool]
    simp only [append_assoc, singleton_append]
    exact perm_middle
  have hnd := nodup_cons.mp (hperm.nodup_iff.mp h.nodup)
  have hmem : ∀ x, x ∈ (init ++ L.flatMap Prod.snd) ++ chainIds b L →
      x ∈ freeIds b L ++ chainIds b L := fun x hx =>
    hperm.mem_iff.mpr (.tail _ hx)
  have hidm : id ∈ freeIds b L := (hfree id).mpr (.inl rfl)
  have hr := h.range id (mem_append_left _ hidm)
  refine ⟨⟨h.chain, hnd.2, fun x hx => h.range x (hmem x hx), fun x hx => h.unowned x (hmem x hx),
    h.committed, h.two, h.grows, h.owned, fun hfalse => absurd hfalse htouched⟩,
    ⟨rfl, rfl, rfl, rfl, rfl, rfl, rfl, rfl, rfl, le_rfl⟩, rfl, rfl, rfl, .inr hidm, ?_, hnd.1, ?_,
    hr.1, lt_of_lt_of_le hr.2 h.grows, ?_, ?_, fun _ => Iff.rfl,
    fun hfalse => absurd hfalse htouched, fun x hle hlt => absurd hlt (not_lt.mpr hle)⟩
  · rintro (hle | hm)
    · exact absurd hle (not_le.mpr (lt_of_lt_of_le hr.2 h.grows))
    · exact hnd.1 (mem_append_left _ hm)
  · rintro x (hle | hm)
    · exact .inl hle
    · exact .inr ((hfree x).mpr (.inr hm))
  · exact fun x hx => (hfree x).mpr (.inr hx)
  · exact fun x hx => (hfree x).mp hx

/-- A refill before the id is taken makes no difference to what is taken. -/
theorem Refilled.taken {L'' : FreePages} {id : PageId} (hr : Refilled b L b' L')
    (ht : Taken b' L' id b'' L'') : Taken b L id b'' L'' := by
  have havail : ∀ x, (view b' L').Avail x ↔ (view b L).Avail x := by
    intro x
    show (_ ≤ x ∨ x ∈ _) ↔ (_ ≤ x ∨ x ∈ _)
    rw [hr.free, hr.next]
  refine ⟨ht.accounted, hr.stays.trans ht.stays, ht.dirty.trans hr.dirty, ht.nodes.trans hr.nodes,
    ht.savepoint.trans hr.savepoint, (havail id).mp ht.avail, ht.gone, ht.unlisted,
    fun x hx => (havail x).mp (ht.mono x hx), ht.two, ht.lt, ?_, ?_,
    fun x => (ht.chain_mem x).trans (hr.chain_mem x), ?_,
    fun x hle hlt => ht.filled x (hr.next.trans_le hle) hlt⟩
  · exact fun x hx => hr.free ▸ ht.free_sub x hx
  · exact fun x hx => ht.free_left x (hr.free.symm ▸ hx)
  · intro huntouched
    obtain ⟨hledger, rfl⟩ := ht.untouched huntouched
    have hb' : b'.touchedFreelist = false := by
      rw [← huntouched, hledger]
    obtain ⟨rfl, rfl⟩ := hr.untouched hb'
    exact ⟨hledger, rfl⟩

theorem takePageId_taken (h : Accounted b L) :
    ∃ L', Taken b L b.takePageId.1 b.takePageId.2 L' := by
  unfold takePageId
  split
  · obtain ⟨L', hr⟩ := refillPool_refilled h
    simp only
    split
    · next id hid =>
      obtain ⟨init, hinit⟩ := getLast?_eq_some_iff.mp hid
      have hdrop : b.refillPool.reusePool.dropLast = init := by rw [hinit, dropLast_concat]
      rw [hdrop]
      exact ⟨L', hr.taken (popPool_taken hr.accounted hinit)⟩
    · exact ⟨L', hr.taken (extendFile_taken hr.accounted)⟩
  · exact ⟨L, extendFile_taken h⟩

end Take

/-! ## Writing -/

section Write

variable {b : Batch} {L : FreePages} {id : PageId}

/-- A page the batch owns is none of the free ids and inside the file. -/
theorem Sound.owned_spec (h : Sound b L) (hp : AssocList.get id b.dirty = some p) :
    id ∉ freeIds b L ++ chainIds b L ∧ 2 ≤ id ∧ id < b.nextPage := by
  refine ⟨?_, h.owned id p hp⟩
  intro hm
  nomatch (h.unowned id hm).symm.trans hp

theorem Sound.holds_owned (h : Sound b L) (hp : AssocList.get id b.dirty = some p) :
    Holds (view b L) [(id, p)] := by
  obtain ⟨hout, -, hlt⟩ := h.owned_spec hp
  refine ⟨?_, pairwise_singleton _ _, ?_⟩
  · intro c hc
    obtain rfl := mem_singleton.mp hc
    exact read_eq_some.mpr (pageBytes_of_owned hp)
  · intro c hc
    obtain rfl := mem_singleton.mp hc
    rintro (hle | hm)
    · exact absurd hle (not_le.mpr hlt)
    · exact hout (mem_append_left _ hm)

/-- Kept nodes after a write to `id`: those of other pages, and for `id` what
    was written. -/
def KeptAfter (b : Batch) (id : PageId) (p : Page) (ns : List (PageId × (Node × Nat))) : Prop :=
  ∀ id' x, AssocList.get id' ns = some x →
    (id' ≠ id ∧ AssocList.get id' b.nodes = some x)
      ∨ (id' = id ∧ p = .node x.1 ∧ x.2 = x.1.encodedSize)

theorem accounted_write (h : Accounted b L) (hout : id ∉ freeIds b L ++ chainIds b L)
    (h2 : 2 ≤ id) (hlt : id < b.nextPage) (p : Page) (sp : Option Savepoint)
    (ns : List (PageId × (Node × Nat))) :
    Accounted { b with dirty := put id p b.dirty, savepoint := sp, nodes := ns } L := by
  refine ⟨h.chain, h.nodup, h.range, ?_, h.committed, h.two, h.grows, ?_, h.idle⟩
  · intro x hx
    show AssocList.get x (put id p b.dirty) = none
    rw [get_put, if_neg (fun heq => hout (by rw [← heq]; exact hx))]
    exact h.unowned x hx
  · intro x q hq
    rw [get_put] at hq
    split at hq
    · next heq =>
      subst heq
      exact ⟨h2, hlt⟩
    · exact h.owned x q hq

theorem sound_write (h : Sound b L) (hout : id ∉ freeIds b L ++ chainIds b L) (h2 : 2 ≤ id)
    (hlt : id < b.nextPage) (sp : Option Savepoint) (hns : KeptAfter b id p ns) :
    Sound { b with dirty := put id p b.dirty, savepoint := sp, nodes := ns } L := by
  refine ⟨accounted_write h.toAccounted hout h2 hlt p sp ns, ?_⟩
  intro x n s hn
  show AssocList.get x (put id p b.dirty) = some (.node n) ∧ _
  rw [get_put]
  rcases hns x (n, s) hn with ⟨hne, hold⟩ | ⟨rfl, rfl, hsize⟩
  · rw [if_neg hne]
    exact h.kept x n s hold
  · rw [if_pos rfl]
    exact ⟨rfl, hsize⟩

theorem pageBytes_put (sp : Option Savepoint) (ns : List (PageId × (Node × Nat))) (p : Page)
    (x : PageId) :
    pageBytes { b with dirty := put id p b.dirty, savepoint := sp, nodes := ns } x
      = if x = id then .ok p else b.pageBytes x := by
  unfold pageBytes
  simp only [get_put]
  by_cases h : x = id
  · rw [if_pos h, if_pos h]
  · rw [if_neg h, if_neg h]

theorem owns_put (sp : Option Savepoint) (ns : List (PageId × (Node × Nat))) (p : Page)
    (x : PageId) :
    owns { b with dirty := put id p b.dirty, savepoint := sp, nodes := ns } x = true
      ↔ x = id ∨ b.owns x = true := by
  unfold owns
  simp only [get_put]
  by_cases h : x = id
  · simp [h]
  · simp [h]

/-- **REWRITING**: a page the batch owns takes new contents. -/
theorem work_write (h : Sound b L) (hq : AssocList.get id b.dirty = some q) (sp : Option Savepoint)
    (hns : KeptAfter b id p ns) : Work b L [(id, q)]
      { b with dirty := put id p b.dirty, savepoint := sp, nodes := ns } L [(id, p)] := by
  obtain ⟨hout, h2, hlt⟩ := h.owned_spec hq
  have hown : b.owns id = true := owns_iff.mpr ⟨q, hq⟩
  have hs := sound_write h hout h2 hlt sp hns
  refine ⟨hs, ⟨rfl, rfl, rfl, rfl, rfl, rfl, rfl, rfl, rfl, le_rfl⟩, ⟨?_, ?_, ?_, ?_⟩, ?_, ?_⟩
  · intro x _ hW
    have hne : x ≠ id := fun heq => hW ⟨heq ▸ hown, (id, q), mem_singleton.mpr rfl, heq.symm⟩
    show Except.toOption _ = Except.toOption _
    rw [pageBytes_put, if_neg hne]
  · intro x hx
    exact (owns_put sp ns p x).mpr (.inr hx)
  · intro x hx
    rcases (owns_put sp ns p x).mp hx with heq | ho
    · exact .inl (heq ▸ hown)
    · exact .inl ho
  · exact fun x hx => hx
  · refine hs.holds_owned ?_
    show AssocList.get id (put id p b.dirty) = some p
    rw [get_put, if_pos rfl]
  · intro c hc
    obtain rfl := mem_singleton.mp hc
    exact .inl ⟨(id, q), mem_singleton.mpr rfl, rfl⟩

theorem keptAfter_del (p : Page) : KeptAfter b id p (del id b.nodes) := by
  intro x n hx
  rw [get_del] at hx
  split at hx
  · nomatch hx
  · next hne => exact .inl ⟨hne, hx⟩

/-- **ALLOCATION**: a page that nothing used, with its header set. -/
theorem allocate_work (h : Sound b L) (ty : PageType) :
    ∃ L', Work b L [] (b.allocate ty).2 L' [((b.allocate ty).1, blank ty)]
      ∧ AssocList.get (b.allocate ty).1 (b.allocate ty).2.dirty = some (blank ty) := by
  obtain ⟨L', ht⟩ := takePageId_taken h.toAccounted
  obtain ⟨sp, hrec⟩ := record_eq b.takePageId.1 b.takePageId.2
  have hb' : (b.allocate ty).2 = { b.takePageId.2 with
      dirty := put b.takePageId.1 (blank ty) b.takePageId.2.dirty
      savepoint := sp
      nodes := del b.takePageId.1 b.takePageId.2.nodes } := by
    show setPage b.takePageId.1 (blank ty)
      (record b.takePageId.1 b.takePageId.2) = _
    rw [hrec]
    rfl
  have hid : (b.allocate ty).1 = b.takePageId.1 := rfl
  rw [hb', hid]
  have hs := sound_write (ht.sound h) ht.unlisted ht.two ht.lt sp (keptAfter_del (blank ty))
  have hget : AssocList.get b.takePageId.1
      (put b.takePageId.1 (blank ty) b.takePageId.2.dirty)
      = some (blank ty) := by
    rw [get_put, if_pos rfl]
  refine ⟨L', ⟨hs, ⟨ht.stays.pager, ht.stays.base, ht.stays.dataRoot, ht.stays.catalogRoot,
    ht.stays.freelistRoot, ht.stays.commitPage, ht.stays.refsRoot, ht.stays.freelistOverride,
    ht.stays.allowReuse, ht.stays.next⟩, ⟨?_, ?_, ?_, ?_⟩, hs.holds_owned hget, ?_⟩, hget⟩
  · intro x hx _
    have hne : x ≠ b.takePageId.1 := fun heq => hx (heq ▸ ht.avail)
    show Except.toOption _ = Except.toOption _
    rw [pageBytes_put, if_neg hne]
    unfold pageBytes
    rw [ht.dirty, ht.stays.base, ht.stays.pager]
  · intro x hx
    refine (owns_put _ _ _ x).mpr (.inr ?_)
    unfold owns
    rw [ht.dirty]
    exact hx
  · intro x hx
    rcases (owns_put _ _ _ x).mp hx with heq | ho
    · exact .inr (heq ▸ ht.avail)
    · unfold owns at ho
      rw [ht.dirty] at ho
      exact .inl ho
  · exact fun x hx => ht.mono x hx
  · intro c hc
    obtain rfl := mem_singleton.mp hc
    exact .inr ht.avail

/-- `page_mut` on a page the batch owns. -/
theorem pageMut_work (h : Sound b L) (hq : AssocList.get id b.dirty = some q) (f : Page → Page) :
    ∃ b', pageMut id f b = .ok () b' ∧ Work b L [(id, q)] b' L [(id, f q)]
      ∧ AssocList.get id b'.dirty = some (f q)
      ∧ AssocList.get id b'.nodes = none := by
  obtain ⟨sp, hrec⟩ := record_eq id b
  refine ⟨{ b with dirty := put id (f q) b.dirty, savepoint := sp,
                   nodes := del id b.nodes }, ?_,
    work_write h hq sp (keptAfter_del (f q)), ?_, ?_⟩
  · unfold pageMut
    rw [hrec]
    simp only [hq]
  · show AssocList.get id (put id (f q) b.dirty) = some (f q)
    rw [get_put, if_pos rfl]
  · show AssocList.get id (del id b.nodes) = none
    rw [get_del, if_pos rfl]

/-- Keeping a node beside the page it was written to. -/
theorem keepNodeSized_work (h : Sound b L) (hC : Holds (view b L) C) {n : Node}
    (hn : AssocList.get id b.dirty = some (.node n)) :
    Work b L C (b.keepNodeSized id n n.encodedSize) L C := by
  refine work_quiet h hC b.savepoint _ ?_
  intro id' x hx
  rw [get_put] at hx
  split at hx
  · next heq =>
    cases hx
    exact .inr ⟨heq ▸ hn, rfl⟩
  · split at hx
    · nomatch hx
    · exact .inl hx

end Write

end QuantyPagerInv
