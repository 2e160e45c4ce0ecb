import QuantyDb.FreeListProofs

/-! # What a commit leaves behind

    A committed state is healthy when its free list is sound and names nothing
    that the meta reaches.  What a meta reaches depends on how pages are
    followed, so health is relative to a `Reading`: which pages the meta names
    and which pages a page names.  Nothing here depends on the reading.

    A batch is lawful when what it links to is what it wrote or what was
    reached before, and when a free list set wholesale names nothing in use.
    A lawful batch takes a healthy state to a healthy state, and without an
    override it loses no id. -/

namespace QuantyCommit

open QuantyKey QuantyPage QuantyPager QuantyPagerInv QuantySavepoint QuantyFreeList Linked List
open Batch
open AssocList

/-! ## Following pages -/

/-- How pages are followed. -/
structure Reading (R : Type) where
  roots : (dataRoot catalogRoot refsRoot commitPage : PageId) → List (R × PageId)
  links : R → Page → List (R × PageId)

/-- What a page is read as. -/
inductive Role
  | tree | value | record
  deriving DecidableEq, Repr

/-- A pointer to a page, `NIL_PAGE` being none. -/
def edge (r : Role) (id : PageId) : List (Role × PageId) :=
  if id = NIL_PAGE then [] else [(r, id)]

/-- Where the value of a leaf entry goes on. -/
def valueEdge : ValueRef → List (Role × PageId)
  | .inline _ => []
  | .overflow head _ => edge .value head

/-- Everything that a page points to: the children of a branch, the overflow
    chains of a leaf, the trees and the parent of a commit record. -/
def pointers : Role → Page → List (Role × PageId)
  | .tree, .node (.branch f es) => edge .tree f ++ es.flatMap (fun e => edge .tree e.2)
  | .tree, .node (.leaf es) => es.flatMap (fun e => valueEdge e.2)
  | .value, .overflow next _ => edge .value next
  | .record, .commit info =>
      edge .tree info.dataRoot ++ edge .tree info.catalogRoot ++ edge .record info.parentPage
  | _, _ => []

/-- The reading that follows every pointer: the data, catalog and refs trees
    and the whole chain of commits. -/
def everything : Reading Role where
  roots dataRoot catalogRoot refsRoot commitPage :=
    edge .tree dataRoot ++ edge .tree catalogRoot ++ edge .tree refsRoot ++ edge .record commitPage
  links := pointers

/-- The page that storage holds. -/
def pageAt (p : Pager) (id : PageId) : Option Page :=
  (AssocList.get id p.storage.pages).map Sealed.page

/-- The page as the batch has it. -/
def batchAt (b : Batch) (id : PageId) : Option Page :=
  (AssocList.get id b.dirty).or (pageAt b.pager id)

section Reach

variable {R : Type} (rd : Reading R)

/-- What the committed meta reaches. -/
def Reaches (p : Pager) : R → PageId → Prop :=
  Reach rd.links (pageAt p)
    (rd.roots p.committed.dataRoot p.committed.catalogRoot p.committed.refsRoot
      p.committed.commitPage)

/-- What the roots of a batch reach. -/
def BatchReaches (b : Batch) : R → PageId → Prop :=
  Reach rd.links (batchAt b) (rd.roots b.dataRoot b.catalogRoot b.refsRoot b.commitPage)

/-- Every id that a free list names: those it lists and its own pages. -/
def named (L : FreePages) : List PageId :=
  L.flatMap Prod.snd ++ L.map Prod.fst

/-- **A HEALTHY COMMITTED STATE**: the free list is sound, what the meta
    reaches is stored inside the file, and the list names none of it. -/
structure Healthy (p : Pager) (L : FreePages) : Prop
    extends FreeListSound p L where
  size : validPageSize p.pageSize = true
  inside : ∀ r x, Reaches rd p r x →
    2 ≤ x ∧ x < p.committed.pageCount ∧ (pageAt p x).isSome = true
  apart : ∀ r x, Reaches rd p r x → x ∉ named L

/-- **A LAWFUL BATCH**: its roots, and the pages it wrote and still reaches,
    lead to what it wrote or to what the base reaches; a free list set
    wholesale names ids of the committed file once, and nothing in use. -/
structure Lawful (b : Batch) : Prop where
  roots : ∀ r x, (r, x) ∈ rd.roots b.dataRoot b.catalogRoot b.refsRoot b.commitPage →
    b.owns x = true ∨ Reaches rd b.pager r x
  links : ∀ r x page, BatchReaches rd b r x → AssocList.get x b.dirty = some page →
    ∀ r' y, (r', y) ∈ rd.links r page → b.owns y = true ∨ Reaches rd b.pager r' y
  override : ∀ ids, b.freelistOverride = some ids →
    ids.Nodup ∧ (∀ x ∈ ids, 2 ≤ x ∧ x < b.base.pageCount)
      ∧ ∀ r x, BatchReaches rd b r x → x ∈ ids → b.owns x = true

end Reach

/-! ## Publishing -/

theorem get_writePages {l : List (PageId × Sealed)} (hs : AssocList.Sorted l) (st : Storage)
    (id : PageId) :
    AssocList.get id (st.writePages l).pages
      = (AssocList.get id l).or (AssocList.get id st.pages) := by
  induction l generalizing st with
  | nil => rfl
  | cons e rest ih =>
      show AssocList.get id (Storage.writePages (st.writePage e.1 e.2) rest).pages = _
      rw [ih (pairwise_cons.mp hs).2, Storage.writePage, get_put]
      by_cases hid : id = e.1
      · subst hid
        simp [AssocList.get, hs.get_tail]
      · simp [AssocList.get, hid, Ne.symm hid]

theorem writeMeta_pages (st : Storage) (i : Nat) (m : Meta) :
    (st.writeMeta i m).pages = st.pages := by
  rw [Storage.writeMeta]
  split <;> rfl

variable {p : Pager} {ids : List PageId} {N T : FreePages} {c x : PageId}

section Publish

variable {b : Batch}

/-- What storage holds after a commit: the sealed pages of the batch over what
    was there. -/
theorem get_publish (hs : AssocList.Sorted b.dirty) (now : Nat) (id : PageId) :
    AssocList.get id (b.publish now).storage.pages
      = ((AssocList.get id b.dirty).map (fun page => ⟨b.base.txid + 1, page⟩)).or
          (AssocList.get id b.pager.storage.pages) := by
  show AssocList.get id (Storage.writeMeta _ _ _).pages = _
  rw [writeMeta_pages, sealedPages,
    get_writePages (sorted_map (Sealed.mk (b.base.txid + 1)) hs), get_map]

theorem pageAt_publish (hs : AssocList.Sorted b.dirty) (now : Nat) (id : PageId) :
    pageAt (b.publish now) id = batchAt b id := by
  rw [pageAt, get_publish hs, batchAt, pageAt]
  cases AssocList.get id b.dirty <;> rfl

/-- A page of the free list reads from storage. -/
theorem readPage_freeList {id next : PageId} (h2 : 2 ≤ id) (hlt : id < p.committed.pageCount)
    (hp : pageAt p id = some (.freeList next ids)) : p.readPage id = .ok (.freeList next ids) := by
  obtain ⟨s, hs, hpage⟩ := Option.map_eq_some_iff.mp hp
  rw [Pager.readPage, if_neg (by lia), hs]
  simp only [hpage, Page.check]

theorem pageAt_of_readPage {id : PageId} {page : Page} (h : p.readPage id = .ok page) :
    2 ≤ id ∧ id < p.committed.pageCount ∧ pageAt p id = some page := by
  rw [Pager.readPage] at h
  split at h
  · nomatch h
  · next hrange =>
    split at h
    · nomatch h
    · next s hs =>
      split at h
      · nomatch h
      · cases h
        refine ⟨by lia, by lia, ?_⟩
        rw [pageAt, hs]
        rfl

end Publish

/-- The stretch written is there once it is published. -/
theorem Segment.publish {b' : Batch} {ps : Nat} {t : PageId} (hs : AssocList.Sorted b'.dirty)
    (now : Nat) (h : Segment (fun x => AssocList.get x b'.dirty) ps c N t) :
    Segment (pageAt (b'.publish now)) ps c N t := by
  induction N generalizing c with
  | nil => exact h
  | cons e rest ih =>
      obtain ⟨c', ids⟩ := e
      obtain ⟨rfl, hnil, hlen, next, hpage, hrest⟩ := h
      have hdirty : AssocList.get c' b'.dirty = some (.freeList next ids) := hpage
      refine ⟨rfl, hnil, hlen, next, ?_, ih hrest⟩
      rw [pageAt_publish hs, batchAt, hdirty]
      rfl

/-- A new stretch of chain, put in front of an old one. -/
theorem Segment.chain {t : PageId} (hseg : Segment (pageAt p) p.pageSize c N t) (hT : Chain p t T)
    (hrange : ∀ x ∈ N.map Prod.fst, 2 ≤ x ∧ x < p.committed.pageCount) : Chain p c (N ++ T) := by
  induction N generalizing c with
  | nil =>
      obtain rfl : c = t := hseg
      exact hT
  | cons e rest ih =>
      obtain ⟨c', ids⟩ := e
      obtain ⟨rfl, hnil, hlen, next, hpage, hrest⟩ := hseg
      obtain ⟨h2, hlt⟩ := hrange c' (by simp)
      exact ⟨rfl, hnil, hlen, next, readPage_freeList h2 hlt hpage,
        ih hrest fun x hx => hrange x (.tail _ hx)⟩

/-- A chain whose pages stay as they are stays a chain. -/
theorem chain_congr {p' : Pager} (hps : p'.pageSize = p.pageSize)
    (hcount : p.committed.pageCount ≤ p'.committed.pageCount) (hT : Chain p c T)
    (hsame : ∀ x ∈ T.map Prod.fst, pageAt p' x = pageAt p x) : Chain p' c T := by
  induction T generalizing c with
  | nil => exact hT
  | cons e rest ih =>
      obtain ⟨c', ids⟩ := e
      obtain ⟨rfl, hnil, hlen, next, hread, hrest⟩ := hT
      obtain ⟨h2, hlt, hpage⟩ := pageAt_of_readPage hread
      refine ⟨rfl, hnil, hps.symm ▸ hlen, next, ?_, ih hrest fun x hx =>
        hsame x (.tail _ hx)⟩
      exact readPage_freeList h2 (lt_of_lt_of_le hlt hcount)
        ((hsame c' (by simp)).trans hpage)

/-! ## Health is kept -/

section Health

variable {R : Type} {rd : Reading R} {b b' : Batch} {p : Pager}

/-- What a lawful batch reaches it wrote, or the base reached it. -/
theorem Lawful.reaches (hl : Lawful rd b) {r : R} (h : BatchReaches rd b r x) :
    b.owns x = true ∨ Reaches rd b.pager r x := by
  refine Reach.of_closed hl.roots ?_ ?_ h
  · intro r x page hr hown hpage
    refine hl.links r x page hr ?_
    obtain ⟨q, hq⟩ := owns_iff.mp hown
    rw [batchAt, hq] at hpage
    rw [hq, ← hpage]
    rfl
  · intro r x hr hown
    have hnone : AssocList.get x b.dirty = none :=
      Option.not_isSome_iff_eq_none.mp hown
    rw [batchAt, hnone]
    rfl

/-- What the batch reaches is inside the file and has a page. -/
theorem Lawful.inside {L₀ L : FreePages} (hl : Lawful rd b)
    (hh : Healthy rd b.pager L₀) (hb : Books b L₀ L) {r : R} (h : BatchReaches rd b r x) :
    2 ≤ x ∧ x < b.nextPage ∧ (batchAt b x).isSome = true := by
  rcases hl.reaches h with hown | hold
  · obtain ⟨q, hq⟩ := owns_iff.mp hown
    obtain ⟨h2, hlt⟩ := hb.owned x q hq
    refine ⟨h2, hlt, ?_⟩
    rw [batchAt, hq]
    rfl
  · obtain ⟨h2, hlt, hpage⟩ := hh.inside r x hold
    rw [← hb.committed] at hlt
    refine ⟨h2, lt_of_lt_of_le hlt hb.grows, ?_⟩
    rw [batchAt, Option.isSome_or, hpage, Bool.or_true]

end Health

/-! ## Settling -/

section Settle

variable {b b' : Batch} {p : Pager} {L₀ L : FreePages} {U : PageId → Prop}

/-- **PUBLISHING A SETTLED BATCH**, given where the list `ids` and the old chain
    `T` behind it stand.  `U` is what is in use. -/
theorem publish_settled {tail : PageId} (hset : Settled ids tail b b' N) (hT : Chain b.pager tail T)
    (hcount : b.pager.committed.pageCount ≤ b.nextPage) (htwo : 2 ≤ b.nextPage)
    (hunowned : ∀ x ∈ T.map Prod.fst, AssocList.get x b.dirty = none)
    (hnodup : (ids ++ named T).Nodup) (hrange : ∀ x ∈ ids ++ named T, 2 ≤ x ∧ x < b.nextPage)
    (hinside : ∀ x, U x → x < b.nextPage) (hapart : ∀ x, U x → x ∉ ids ++ named T) (now : Nat) :
    FreeListSound (b'.publish now) (N ++ T) ∧ (∀ x, U x → x ∉ named (N ++ T))
      ∧ (∀ x, U x → pageAt (b'.publish now) x = batchAt b x)
      ∧ ∀ x, x ∈ named (N ++ T) ↔ x ∈ ids ++ named T ∨ b.nextPage ≤ x ∧ x < b'.nextPage := by
  -- every id named now was to be listed, is fresh, or was named behind the tail
  have hperm : (named (N ++ T)).Perm
      ((ids ++ named T) ++ List.range' b.nextPage (b'.nextPage - b.nextPage)) := by
    have h1 : (named (N ++ T)).Perm
        ((N.flatMap Prod.snd ++ N.map Prod.fst) ++ named T) := by
      rw [perm_iff_count]
      intro x
      simp only [named, flatMap_append, map_append, count_append]
      omega
    refine h1.trans ((hset.perm.append_right _).trans ?_)
    simp only [append_assoc]
    exact List.Perm.append_left _ perm_append_comm
  have hmem : ∀ x, x ∈ named (N ++ T) ↔ x ∈ ids ++ named T ∨ b.nextPage ≤ x ∧ x < b'.nextPage := by
    intro x
    have := hset.next
    rw [hperm.mem_iff, mem_append, mem_range'_1]
    constructor
    · rintro (hx | hx)
      · exact .inl hx
      · exact .inr (by lia)
    · rintro (hx | hx)
      · exact .inl hx
      · exact .inr (by lia)
  have hNmem : ∀ x ∈ N.map Prod.fst, x ∈ named (N ++ T) := by
    intro x hx
    rw [named, map_append]
    exact mem_append_right _ (mem_append_left _ hx)
  -- so nothing in use is written while settling
  have hquiet : ∀ x, U x → x ∉ named (N ++ T) := by
    intro x hU hx
    rcases (hmem x).mp hx with hx | hx
    · exact hapart x hU hx
    · have := hinside x hU
      lia
  have hrange' : ∀ x ∈ named (N ++ T), 2 ≤ x ∧ x < b'.nextPage := by
    intro x hx
    have := hset.next
    rcases (hmem x).mp hx with hx | hx
    · have := hrange x hx
      exact ⟨this.1, by lia⟩
    · exact ⟨by lia, hx.2⟩
  have hnodup' : (named (N ++ T)).Nodup := by
    refine hperm.nodup_iff.mpr (nodup_append.mpr ⟨hnodup, nodup_range', ?_⟩)
    rintro x hx y hy rfl
    have := (hrange x hx).2
    have := mem_range'_1.mp hy
    lia
  have hps : (b'.publish now).pageSize = b.pageSize := by
    show b'.pager.pageSize = b.pager.pageSize
    rw [hset.pager]
  refine ⟨⟨?_, hnodup', hrange', htwo.trans hset.next⟩, hquiet, ?_, hmem⟩
  · have hseg := Segment.publish hset.sorted now hset.segment
    rw [← hps] at hseg
    refine Segment.chain hseg ?_ fun x hx => hrange' x (hNmem x hx)
    refine chain_congr hps (hcount.trans hset.next) hT ?_
    intro x hx
    have hout : x ∉ N.map Prod.fst := by
      intro hx'
      have hdisj : ((N.map Prod.fst) ++ T.map Prod.fst).Nodup := by
        have := (nodup_append.mp hnodup').2.1
        rwa [map_append] at this
      exact (nodup_append.mp hdisj).2.2 x hx' x hx rfl
    rw [pageAt_publish hset.sorted, batchAt, hset.rest x hout, hunowned x hx, hset.pager]
    rfl
  · intro x hU
    rw [pageAt_publish hset.sorted, batchAt, batchAt, hset.pager,
      hset.rest x fun hx => hquiet x hU (hNmem x hx)]

/-- What is in use is the batch's own or nothing that the old list names, and
    a free list set wholesale names ids of the committed file once, and nothing
    in use. -/
structure Clear (L₀ : FreePages) (b : Batch) (U : PageId → Prop) : Prop where
  inside : ∀ x, U x → x < b.nextPage
  apart : ∀ x, U x → b.owns x = true ∨ x ∉ named L₀
  override : ∀ ids, b.freelistOverride = some ids →
    ids.Nodup ∧ (∀ x ∈ ids, 2 ≤ x ∧ x < b.base.pageCount)
      ∧ ∀ x, U x → x ∈ ids → b.owns x = true

/-- What settling made of a batch. -/
structure Settlement (L₀ : FreePages) (b b' : Batch)
    (L' : FreePages) (U : PageId → Prop) (now : Nat) : Prop where
  freeList : FreeListSound (b'.publish now) L'
  clear : ∀ x, U x → x ∉ named L'
  look : ∀ x, U x → pageAt (b'.publish now) x = batchAt b x
  dataRoot : b'.dataRoot = b.dataRoot
  catalogRoot : b'.catalogRoot = b.catalogRoot
  commitPage : b'.commitPage = b.commitPage
  refsRoot : b'.refsRoot = b.refsRoot
  next : b.nextPage ≤ b'.nextPage
  chained : ∀ x ∈ L'.map Prod.fst, b'.owns x = true ∨ x ∈ L₀.map Prod.fst
  origin : ∀ x, b'.owns x = true → x ∈ L₀.flatMap Prod.snd ∨ b.base.pageCount ≤ x
  mono : ∀ x, b.owns x = true → b'.owns x = true
  sorted : AssocList.Sorted b'.dirty
  pages : ∀ x page, AssocList.get x b'.dirty = some page → AssocList.get x b.dirty = some page
    ∨ 2 ≤ x ∧ ∃ next ids, page = .freeList next ids ∧ next < b'.nextPage
  kept : b.freelistOverride = none → ∀ x ∈ named L₀, b.owns x = true ∨ x ∈ named L'
  swept : ∀ ids, b.freelistOverride = some ids → ∀ x, x ∈ named L' ↔
    (x ∈ ids ∧ b.owns x = false) ∨ b.nextPage ≤ x ∧ x < b'.nextPage

/-- The ids a batch has to list, with the unread chain, are its free ids and
    the pages of the old chain. -/
theorem leftovers_perm (b : Batch) (L : FreePages) :
    (b.reusePool ++ b.deferredFree ++ named L).Perm (freeIds b L ++ chainIds b L) := by
  rw [perm_iff_count]
  intro x
  simp only [named, freeIds, chainIds, count_append]
  omega

/-- Where the unread chain starts is inside the file, or nowhere. -/
theorem chainCursor_lt (hL : Books b L₀ L) : b.chainCursor < b.nextPage := by
  have htwo := hL.two.trans hL.grows
  have hchain := hL.chain
  cases L with
  | nil =>
      have hnil : b.chainCursor = NIL_PAGE := hchain
      rw [hnil, NIL_PAGE]
      lia
  | cons e rest =>
      have hrange := hL.range e.1 (by simp [chainIds])
      rw [← hchain.1]
      exact lt_of_lt_of_le hrange.2 hL.grows

theorem room_of_size {ps : Nat} (h : validPageSize ps = true) : 0 < idsPerPage ps := by
  have := (le_of_validPageSize h).1
  simp only [idsPerPage, PAGE_HEADER_LEN]
  omega

/-- Settling what the batch has left over. -/
theorem settle_leftovers (hf : FreeListSound b.pager L₀) (hsize : validPageSize b.pageSize = true)
    (hL : Books b L₀ L) (hc : Clear L₀ b U) (hover : b.freelistOverride = none) (now : Nat) :
    ∃ b' L', settleFreelist b = .ok () b' ∧ b'.pager = b.pager ∧ b'.base = b.base
      ∧ Settlement L₀ b b' L' U now := by
  have hroot : Chain b.pager b.base.freelistRoot L₀ := by
    rw [hL.committed]
    exact hf.chain
  have hcount : b.pager.committed.pageCount ≤ b.nextPage := by
    rw [← hL.committed]
    exact hL.grows
  obtain ⟨b', N, hsettle, hset⟩ :=
    settleFreelist_settled (books_settles hL hroot (room_of_size hsize) hover)
  have hlist : b.settleList = (b.reusePool ++ b.deferredFree, b.chainCursor) := by
    rw [settleList, hover]
  rw [hlist] at hset
  have hperm := leftovers_perm b L
  have htwo := hL.two.trans hL.grows
  have hrange : ∀ x ∈ b.reusePool ++ b.deferredFree ++ named L, 2 ≤ x ∧ x < b.nextPage := by
    intro x hx
    have := hL.range x (hperm.mem_iff.mp hx)
    exact ⟨this.1, lt_of_lt_of_le this.2 hL.grows⟩
  have hpub := publish_settled hset hL.chain hcount htwo
    (fun x hx => hL.unowned x (mem_append_right _ (mem_append_left _ hx)))
    (hperm.nodup_iff.mpr hL.nodup) hrange hc.inside (fun x hU hx => by
      have hfree := hperm.mem_iff.mp hx
      rcases hc.apart x hU with hown | hout
      · obtain ⟨q, hq⟩ := owns_iff.mp hown
        cases (hL.unowned x hfree).symm.trans hq
      · refine hout ?_
        rcases mem_append.mp hfree with hx | hx
        · exact mem_append_left _ (hL.free_sub x hx)
        · exact mem_append_right _ ((hL.chain_mem x).mp hx)) now
  refine ⟨b', N ++ L, hsettle, hset.pager, hset.base, hpub.1, hpub.2.1, hpub.2.2.1, hset.dataRoot,
    hset.catalogRoot, hset.commitPage, hset.refsRoot, hset.next, ?_,
    fun x hx => hset.origin hL hx, fun x hx => hset.mono hx, hset.sorted,
    fun x page hx => hset.pages (fun x hx => hrange x (mem_append_left _ hx)) htwo
      (chainCursor_lt hL) hx, ?_, fun ids hids => by cases hover.symm.trans hids⟩
  · intro x hx
    rw [map_append] at hx
    rcases mem_append.mp hx with hx | hx
    · exact .inl (hset.owned hx)
    · exact .inr ((hL.chain_mem x).mp (mem_append_left _ hx))
  · intro _ x hx
    -- nothing free and no page of the old chain is left out of the new list
    have hback : x ∈ freeIds b L ++ chainIds b L → x ∈ named (N ++ L) := fun hfree =>
      (hpub.2.2.2 x).mpr (.inl (hperm.mem_iff.mpr hfree))
    rcases mem_append.mp hx with hx | hx
    · rcases hL.spent x hx with hfree | hown
      · exact .inr (hback (mem_append_left _ hfree))
      · exact .inl hown
    · exact .inr (hback (mem_append_right _ ((hL.chain_mem x).mpr hx)))

/-- Settling a list that was set wholesale. -/
theorem settle_override (hsize : validPageSize b.pageSize = true) (hL : Books b L₀ L)
    (hc : Clear L₀ b U) (hover : b.freelistOverride = some ids) (now : Nat) :
    ∃ b' L', settleFreelist b = .ok () b' ∧ b'.pager = b.pager ∧ b'.base = b.base
      ∧ Settlement L₀ b b' L' U now := by
  obtain ⟨hnodup, hrange, hused⟩ := hc.override ids hover
  have hlist : b.settleList = (ids.filter (fun x => !b.owns x), NIL_PAGE) := by
    rw [settleList, hover]
  have hrange' : ∀ x ∈ ids.filter (fun x => !b.owns x), 2 ≤ x ∧ x < b.nextPage := by
    intro x hx
    have := hrange x (mem_of_mem_filter hx)
    exact ⟨this.1, lt_of_lt_of_le this.2 hL.grows⟩
  have htwo : 2 ≤ b.nextPage := hL.two.trans hL.grows
  have hsettles : Settles b := by
    refine ⟨room_of_size hsize, hL.sorted, htwo, ?_, ?_, ?_⟩
    · rw [hlist]
      exact hnodup.filter _
    · rw [hlist]
      exact hrange'
    · intro _ hnone
      cases hover.symm.trans hnone
  obtain ⟨b', N, hsettle, hset⟩ := settleFreelist_settled hsettles
  rw [hlist] at hset
  have hcount : b.pager.committed.pageCount ≤ b.nextPage := by
    rw [← hL.committed]
    exact hL.grows
  have hnamed : ∀ l : List PageId, l ++ named [] = l := fun l => by simp [named]
  have hpub := publish_settled (T := []) hset rfl hcount htwo
    (fun x hx => absurd hx not_mem_nil) ((hnamed _).symm ▸ hnodup.filter _)
    ((hnamed _).symm ▸ hrange') hc.inside (fun x hU hx => by
      rw [hnamed] at hx
      obtain ⟨hmem, hown⟩ := mem_filter.mp hx
      rw [hused x hU hmem] at hown
      cases hown) now
  refine ⟨b', N ++ [], hsettle, hset.pager, hset.base, hpub.1, hpub.2.1, hpub.2.2.1, hset.dataRoot,
    hset.catalogRoot, hset.commitPage, hset.refsRoot, hset.next, ?_,
    fun x hx => hset.origin hL hx, fun x hx => hset.mono hx, hset.sorted,
    fun x page hx => hset.pages hrange' htwo (lt_of_lt_of_le Nat.zero_lt_two htwo) hx,
    (fun hnone => by cases hover.symm.trans hnone), ?_⟩
  · intro x hx
    rw [append_nil] at hx
    exact .inl (hset.owned hx)
  · intro ids' hids' x
    obtain rfl : ids = ids' := Option.some.inj (hover.symm.trans hids')
    rw [hpub.2.2.2 x, hnamed, mem_filter, Bool.not_eq_true']

/-- **SETTLING**, whether the free list is what the batch has left over or one
    that was set wholesale. -/
theorem settle_settlement (hf : FreeListSound p L₀) (hsize : validPageSize p.pageSize = true)
    (hb : Balanced p L₀ b) (hc : Clear L₀ b U) (now : Nat) :
    ∃ b' L', settleFreelist b = .ok () b' ∧ b'.pager = b.pager ∧ b'.base = b.base
      ∧ Settlement L₀ b b' L' U now := by
  obtain rfl := hb.pager
  obtain ⟨L, hL⟩ := hb.now
  cases hover : b.freelistOverride with
  | none => exact settle_leftovers hf hsize hL hc hover now
  | some ids => exact settle_override hsize hL hc hover now

end Settle

section Health

variable {R : Type} {rd : Reading R} {b b' : Batch} {p : Pager}
  {L₀ L : FreePages}

/-- What settling made of a lawful batch: everything it reaches stays in use. -/
structure Outcome (rd : Reading R) (L₀ : FreePages) (b b' : Batch)
    (L' : FreePages) (now : Nat) : Prop
    extends Settlement L₀ b b' L' (fun x => ∃ r, BatchReaches rd b r x) now where
  healthy : Healthy rd (b'.publish now) L'
  reached : ∀ r x, Reaches rd (b'.publish now) r x ↔ BatchReaches rd b r x

/-- What a lawful batch reaches is clear of the free list. -/
theorem Lawful.clear (hl : Lawful rd b) (hh : Healthy rd b.pager L₀) (hL : Books b L₀ L) :
    Clear L₀ b (fun x => ∃ r, BatchReaches rd b r x) := by
  refine ⟨?_, ?_, ?_⟩
  · rintro x ⟨r, hr⟩
    exact (hl.inside hh hL hr).2.1
  · rintro x ⟨r, hr⟩
    exact (hl.reaches hr).imp_right (hh.apart r x)
  · intro ids hids
    obtain ⟨hnodup, hrange, hused⟩ := hl.override ids hids
    refine ⟨hnodup, hrange, ?_⟩
    rintro x ⟨r, hr⟩ hx
    exact hused r x hr hx

/-- **A LAWFUL BATCH KEEPS HEALTH**. -/
theorem settle_outcome (hh : Healthy rd p L₀) (hb : Balanced p L₀ b) (hl : Lawful rd b)
    (now : Nat) :
    ∃ b' L', settleFreelist b = .ok () b' ∧ b'.pager = b.pager ∧ b'.base = b.base
      ∧ Outcome rd L₀ b b' L' now := by
  obtain rfl := hb.pager
  obtain ⟨L, hL⟩ := hb.now
  obtain ⟨b', L', hsettle, hpager, hbase, hset⟩ :=
    settle_settlement hh.toFreeListSound hh.size hb (hl.clear hh hL) now
  have hreach : ∀ r x, Reaches rd (b'.publish now) r x ↔ BatchReaches rd b r x := by
    intro r x
    show Reach rd.links (pageAt (b'.publish now))
      (rd.roots b'.dataRoot b'.catalogRoot b'.refsRoot b'.commitPage) r x ↔ _
    rw [hset.dataRoot, hset.catalogRoot, hset.refsRoot, hset.commitPage]
    exact reach_congr fun r x hr => hset.look x ⟨r, hr⟩
  have hps : (b'.publish now).pageSize = b.pager.pageSize := by
    show b'.pager.pageSize = _
    rw [hpager]
  refine ⟨b', L', hsettle, hpager, hbase, hset, ⟨hset.freeList, hps.symm ▸ hh.size, ?_, ?_⟩, hreach⟩
  · intro r x hr
    have hr' := (hreach r x).mp hr
    have hin := hl.inside hh hL hr'
    refine ⟨hin.1, lt_of_lt_of_le hin.2.1 hset.next, ?_⟩
    rw [hset.look x ⟨r, hr'⟩]
    exact hin.2.2
  · exact fun r x hr => hset.clear x ⟨r, (hreach r x).mp hr⟩


/-! ## Commits -/

/-- A commit that succeeds publishes the settled batch. -/
theorem commit_eq_ok {now t : Nat} {p' : Pager} (h : b.commit now = .ok (t, p')) :
    ∃ b', settleFreelist b = .ok () b' ∧ t = b'.base.txid + 1 ∧ p' = b'.publish now := by
  rw [commit] at h
  split at h
  · nomatch h
  · next b' hprep =>
    cases h
    refine ⟨b', ?_, rfl, rfl⟩
    rw [prepare] at hprep
    split at hprep
    · nomatch hprep
    · split at hprep
      · nomatch hprep
      · next hsettle =>
        split at hprep
        · cases hprep
          exact hsettle
        · nomatch hprep

/-- **THE FREE LIST UNDER ORDINARY COMMITS**: any run of calls on a batch over
    a healthy state, committed without an override, leaves a healthy state,
    and every id that the old list named was written by the batch or is named
    by the new list. -/
theorem commit_keeps_free_list {L₀ : FreePages} {acts : List Action}
    {now t : Nat} {p' : Pager} (hh : Healthy rd p L₀)
    (hl : Lawful rd (runActions acts p.begin))
    (hover : (runActions acts p.begin).freelistOverride = none)
    (hc : (runActions acts p.begin).commit now = .ok (t, p')) :
    ∃ L', Healthy rd p' L' ∧ ∀ x ∈ L₀.flatMap Prod.snd ++ L₀.map Prod.fst,
      (runActions acts p.begin).owns x = true ∨ x ∈ L'.flatMap Prod.snd ∨ x ∈ L'.map Prod.fst := by
  have hb := runActions_balanced acts (balanced_begin hh.toFreeListSound)
  obtain ⟨b', L', hsettle, -, -, hout⟩ := settle_outcome hh hb hl now
  obtain ⟨b'', hsettle', -, rfl⟩ := commit_eq_ok hc
  obtain ⟨rfl⟩ : b' = b'' := by
    have := hsettle.symm.trans hsettle'
    injection this
  refine ⟨L', hout.healthy, ?_⟩
  intro x hx
  rcases hout.kept hover x hx with hown | hnamed
  · exact .inl hown
  · exact .inr (mem_append.mp hnamed)

end Health

/-! ## A file with a free page -/

/-- One leaf, one page of the free list, one page that it lists. -/
def agedPager : Pager where
  pageSize := 512
  storage := ⟨none, some ⟨512, 1, 2, 0, 3, 5, 0, 0, 0⟩,
    [(2, ⟨1, .node (.leaf [([1], .inline [])])⟩), (3, ⟨1, .freeList 0 [4]⟩)]⟩
  committed := ⟨512, 1, 2, 0, 3, 5, 0, 0, 0⟩

/-- A statement that is undone, and one that takes the free page. -/
def reusingActions : List Action :=
  [.savepoint, .allocate .leaf, .rollbackSavepoint, .allocate .leaf,
    .pageMut 4 (fun _ => .node (.leaf [([1], .inline []), ([2], .inline [])])), .setDataRoot 4,
    .suspendResume]

theorem agedPager_reaches {r : Role} (h : Reaches everything agedPager r x) : x = 2 := by
  induction h with
  | root hroot =>
      cases mem_singleton.mp hroot
      rfl
  | @link r r' x y page _ hp hy ih =>
      subst ih
      obtain rfl : Page.node (.leaf [([1], .inline [])]) = page := Option.some.inj hp
      cases r <;> nomatch hy

theorem agedPager_healthy : Healthy everything agedPager [(3, [4])] := by
  refine ⟨⟨⟨rfl, by decide, by decide, 0, rfl, rfl⟩, by decide, by decide, by decide⟩, by decide,
    ?_, ?_⟩
  · intro r x hr
    rw [agedPager_reaches hr]
    decide
  · intro r x hr
    rw [agedPager_reaches hr]
    decide

theorem reusingActions_lawful : Lawful everything (runActions reusingActions agedPager.begin) := by
  refine ⟨?_, ?_, nofun⟩
  · intro r x hroot
    cases mem_singleton.mp hroot
    exact .inl rfl
  · intro r x page _ hpage r' y hy
    cases mem_singleton.mp (mem_of_get hpage)
    cases r <;> nomatch hy

/-- The page that the list named is the new root, and the old page of the list
    is listed again. -/
theorem commit_keeps_free_list_reused :
    ∃ p' L', (runActions reusingActions agedPager.begin).commit 0 = .ok (2, p')
      ∧ Healthy everything p' L' ∧ ∀ x ∈ [4, 3],
        (runActions reusingActions agedPager.begin).owns x = true
          ∨ x ∈ L'.flatMap Prod.snd ∨ x ∈ L'.map Prod.fst := by
  obtain ⟨L', hhealthy, hkept⟩ :=
    commit_keeps_free_list agedPager_healthy reusingActions_lawful rfl rfl
  exact ⟨_, L', rfl, hhealthy, hkept⟩

end QuantyCommit
