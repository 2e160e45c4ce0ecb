import QuantyDb.SavepointProofs
import QuantyDb.Reach

/-! # Writing the free list back

    At commit the ids that are left over go back on the list.  Each page of
    the new chain is itself taken off the list where that is safe, and from
    past the end of the file otherwise, while the list is being written.

    `settleFreelist_settled` says where every id goes: the ids and the pages
    of the new stretch of chain are the ids there were to list and the ids the
    file grew by, each once.  From this, and from the books of the batch, a
    commit keeps the free list sound and apart from everything that the new
    meta reaches. -/

namespace QuantyFreeList

open QuantyKey QuantyPage QuantyPager QuantyPagerInv QuantySavepoint CowHeap Linked List AssocList
open Batch

/-! ## The loop -/

/-- The element and what is left after it is swapped out are the list. -/
theorem swapRemove_perm {l : List PageId} {i : Nat} (hi : i < l.length) :
    (l.getD i NIL_PAGE :: swapRemove l i).Perm l := by
  obtain ⟨init, x, rfl⟩ : ∃ init x, l = init ++ [x] := by
    refine ⟨l.dropLast, l.getLast (ne_nil_of_length_pos (by omega)), ?_⟩
    exact (dropLast_append_getLast _).symm
  have hremove : swapRemove (init ++ [x]) i = ((init ++ [x]).set i x).dropLast := by
    rw [swapRemove, getLast?_concat]
  rw [hremove, getD_eq_getElem _ _ hi]
  by_cases hlast : i < init.length
  · rw [set_append_left _ _ hlast, dropLast_concat, getElem_append_left hlast]
    have h1 := (set_perm_cons_eraseIdx hlast x).cons init[i]
    have h2 := (getElem_cons_eraseIdx_perm hlast).cons x
    exact (h1.trans (List.Perm.swap _ _ _)).trans
      (h2.trans (perm_append_singleton x init).symm)
  · obtain rfl : i = init.length := by
      rw [length_append, length_singleton] at hi
      omega
    rw [set_append_right _ _ le_rfl]
    simpa using (perm_append_singleton x init).symm

/-- A stretch of chain from one page up to another: each page with the ids it
    lists. -/
def Segment (look : PageId → Option Page) (ps : Nat) :
    PageId → FreePages → PageId → Prop
  | c, [], t => c = t
  | c, (c', ids) :: N, t => c' = c ∧ c ≠ NIL_PAGE ∧ ids.length ≤ idsPerPage ps
      ∧ ∃ next, look c = some (.freeList next ids) ∧ Segment look ps next N t

variable {N : FreePages} {tail x : PageId} {page : Page} {R : List PageId}
  {b b' : Batch} {c head t : PageId} {b'' : Batch} {fuel : Nat}
  {L L₀ : FreePages}

section Segments

variable {look : PageId → Option Page} {ps : Nat}

/-- A page of a stretch leads to a page of it, or to its end. -/
theorem Segment.next (h : Segment look ps c N t) (hx : x ∈ N.map Prod.fst) :
    ∃ next ids, look x = some (.freeList next ids) ∧ (next = t ∨ next ∈ N.map Prod.fst) := by
  induction N generalizing c with
  | nil => nomatch hx
  | cons e rest ih =>
      obtain ⟨c', ids⟩ := e
      obtain ⟨rfl, -, -, next, hpage, hrest⟩ := h
      rcases mem_cons.mp hx with rfl | hx
      · refine ⟨next, ids, hpage, ?_⟩
        cases rest with
        | nil => exact .inl hrest
        | cons e' rest' => exact .inr (mem_cons_of_mem _ (by simp [← hrest.1]))
      · obtain ⟨next', ids', hpage', hnext⟩ := ih hrest hx
        exact ⟨next', ids', hpage', hnext.imp_right (mem_cons_of_mem _)⟩

theorem Segment.snoc {d : PageId} {ids : List PageId} (h : Segment look ps c N d)
    (hd : d ≠ NIL_PAGE) (hlen : ids.length ≤ idsPerPage ps)
    (hpage : look d = some (.freeList t ids)) : Segment look ps c (N ++ [(d, ids)]) t := by
  induction N generalizing c with
  | nil =>
      obtain rfl : c = d := h
      exact ⟨rfl, hd, hlen, t, hpage, rfl⟩
  | cons e rest ih =>
      obtain ⟨c', ids'⟩ := e
      obtain ⟨rfl, hnil, hlen', next, hpage', hrest⟩ := h
      exact ⟨rfl, hnil, hlen', next, hpage', ih hrest⟩

end Segments

/-- One page of the chain: off the list, or past the end of the file.  `b'` is
    the batch with that page holding `page`. -/
structure Drawn (writable R : List PageId) (b : Batch) (id : PageId) (R' : List PageId)
    (page : Page) (b' : Batch) : Prop where
  stays : Stays b b'
  sorted : AssocList.Sorted b'.dirty
  drawn : (id ∈ writable ∧ (id :: R').Perm R ∧ b'.nextPage = b.nextPage)
    ∨ (id = b.nextPage ∧ R' = R ∧ b'.nextPage = b.nextPage + 1)
  page : AssocList.get id b'.dirty = some page
  rest : ∀ x, x ≠ id → AssocList.get x b'.dirty = AssocList.get x b.dirty

section Loop

variable {writable R R' : List PageId} {b b' : Batch} {id : PageId}

/-- Allocation while settling extends the file. -/
theorem allocate_drawn (hreuse : b.allowReuse = false) (hs : AssocList.Sorted b.dirty)
    (ty : PageType) :
    Drawn writable R b (b.allocate ty).1 R (Page.blank ty) (b.allocate ty).2 := by
  have htake : b.takePageId = b.extendFile := by
    rw [takePageId, hreuse]
    rfl
  obtain ⟨sp, hrec⟩ := record_eq b.nextPage { b with nextPage := b.nextPage + 1 }
  have halloc : b.allocate ty = (b.nextPage, { b with
      nextPage := b.nextPage + 1
      dirty := put b.nextPage (Page.blank ty) b.dirty
      savepoint := sp
      nodes := del b.nextPage b.nodes }) := by
    rw [allocate, htake]
    show (b.nextPage, setPage b.nextPage (Page.blank ty)
      (record b.nextPage { b with nextPage := b.nextPage + 1 })) = _
    rw [hrec]
    rfl
  rw [halloc]
  refine ⟨⟨rfl, rfl, rfl, rfl, rfl, rfl, rfl, rfl, rfl, Nat.le_succ _⟩,
    sorted_put hs _ _, .inr ⟨rfl, rfl, rfl⟩, ?_, ?_⟩
  · show AssocList.get b.nextPage (put b.nextPage _ b.dirty) = _
    rw [get_put, if_pos rfl]
  · intro x hx
    show AssocList.get x (put b.nextPage _ b.dirty) = _
    rw [get_put, if_neg hx]

theorem chainPage_drawn (writable R : List PageId) (hreuse : b.allowReuse = false)
    (hs : AssocList.Sorted b.dirty) :
    Drawn writable R b (b.chainPage writable R).1 (b.chainPage writable R).2.1
      (Page.blank .freeList) (b.chainPage writable R).2.2 := by
  rw [chainPage]
  split
  · next i hi =>
    obtain ⟨hlt, hfound, -⟩ := findIdx?_eq_some_iff_getElem.mp hi
    obtain ⟨sp, hrec⟩ := record_eq (R.getD i NIL_PAGE) b
    have hmem : R.getD i NIL_PAGE ∈ writable := by
      rw [getD_eq_getElem _ _ hlt]
      exact contains_iff_mem.mp hfound
    simp only [hrec]
    refine ⟨⟨rfl, rfl, rfl, rfl, rfl, rfl, rfl, rfl, rfl, le_rfl⟩, sorted_put hs _ _,
      .inl ⟨hmem, swapRemove_perm hlt, rfl⟩, ?_, ?_⟩
    · rw [get_put, if_pos rfl]
    · intro x hx
      rw [get_put, if_neg hx]
  · exact allocate_drawn hreuse hs .freeList

/-- Writing the page that was drawn. -/
theorem Drawn.pageMut {old : Page} (h : Drawn writable R b id R' old b') (f : Page → Page) :
    ∃ b'', pageMut id f b' = .ok () b'' ∧ Drawn writable R b id R' (f old) b'' := by
  obtain ⟨sp, hrec⟩ := record_eq id b'
  refine ⟨{ b' with dirty := put id (f old) b'.dirty, savepoint := sp,
                    nodes := del id b'.nodes }, ?_, ?_⟩
  · rw [Batch.pageMut, hrec]
    simp only [h.page]
  · refine ⟨⟨h.stays.pager, h.stays.base, h.stays.dataRoot, h.stays.catalogRoot,
      h.stays.freelistRoot, h.stays.commitPage, h.stays.refsRoot, h.stays.freelistOverride,
      h.stays.allowReuse, h.stays.next⟩, sorted_put h.sorted _ _, h.drawn, ?_, ?_⟩
    · show AssocList.get id (put id _ b'.dirty) = _
      rw [get_put, if_pos rfl]
    · intro x hx
      show AssocList.get x (put id _ b'.dirty) = _
      rw [get_put, if_neg hx]
      exact h.rest x hx

/-- What the loop leaves: a new stretch of chain in front of `head`, over the
    ids there were to list and those the file grew by. -/
structure Chained (writable R : List PageId) (b : Batch) (head head' : PageId) (b' : Batch)
    (N : FreePages) : Prop where
  stays : Stays b b'
  sorted : AssocList.Sorted b'.dirty
  segment : Segment (fun x => AssocList.get x b'.dirty) b.pageSize head' N head
  perm : (N.flatMap Prod.snd ++ N.map Prod.fst).Perm
    (R ++ List.range' b.nextPage (b'.nextPage - b.nextPage))
  drawn : ∀ x ∈ N.map Prod.fst, (x ∈ writable ∧ x ∈ R) ∨ b.nextPage ≤ x
  rest : ∀ x, x ∉ N.map Prod.fst → AssocList.get x b'.dirty = AssocList.get x b.dirty

/-- What a batch needs to settle a list: nothing is reused any more, and the
    ids are named once and inside the file. -/
structure Ready (R : List PageId) (b : Batch) : Prop where
  reuse : b.allowReuse = false
  sorted : AssocList.Sorted b.dirty
  two : 2 ≤ b.nextPage
  nodup : R.Nodup
  range : ∀ x ∈ R, 2 ≤ x ∧ x < b.nextPage

/-- The page drawn is past the meta slots, below the new end, and on the list
    no more. -/
theorem Drawn.fresh (h : Drawn writable R b id R' page b') (hr : Ready R b) :
    2 ≤ id ∧ id < b'.nextPage ∧ id ∉ R' ∧ R'.Nodup ∧ ∀ x ∈ R', 2 ≤ x ∧ x < b'.nextPage := by
  rcases h.drawn with ⟨-, hperm, hnext⟩ | ⟨rfl, rfl, hnext⟩
  · obtain ⟨hout, hnd⟩ := nodup_cons.mp (hperm.nodup_iff.mpr hr.nodup)
    have hid := hr.range id (hperm.mem_iff.mp (.head _))
    rw [hnext]
    exact ⟨hid.1, hid.2, hout, hnd, fun x hx =>
      hr.range x (hperm.mem_iff.mp (.tail _ hx))⟩
  · refine ⟨hr.two, by lia, ?_, hr.nodup, ?_⟩
    · intro hm
      exact absurd (hr.range _ hm).2 (lt_irrefl _)
    · intro x hx
      exact ⟨(hr.range x hx).1, by have := (hr.range x hx).2; lia⟩

/-- A page drawn and written, in front of a list that is settled after it. -/
theorem Drawn.chained {head' : PageId} {keep : Nat} (hr : Ready R b)
    (h : Drawn writable R b id R' (.freeList head (R'.drop keep)) b')
    (hlen : (R'.drop keep).length ≤ idsPerPage b.pageSize)
    (hN : Chained writable (R'.take keep) b' id head' b'' N) :
    Chained writable R b head head' b'' (N ++ [(id, R'.drop keep)]) := by
  obtain ⟨h2, hlt, hout, -, -⟩ := h.fresh hr
  have hpage : AssocList.get id b''.dirty = some (.freeList head (R'.drop keep)) := by
    rw [hN.rest id, h.page]
    intro hm
    rcases hN.drawn id hm with ⟨-, hmem⟩ | hle
    · exact hout (mem_of_mem_take hmem)
    · lia
  have hfst : (N ++ [(id, R'.drop keep)]).map Prod.fst = N.map Prod.fst ++ [id] := by simp
  refine ⟨h.stays.trans hN.stays, hN.sorted, ?_, ?_, ?_, ?_⟩
  · have hseg := hN.segment
    rw [h.stays.pageSize] at hseg
    refine hseg.snoc ?_ hlen hpage
    simp only [NIL_PAGE]
    lia
  · -- the rest of the list, the ids on this page, and the page itself
    have hgrow : (N.flatMap Prod.snd ++ R'.drop keep ++ (N.map Prod.fst ++ [id])).Perm
        (id :: R' ++ List.range' b'.nextPage (b''.nextPage - b'.nextPage)) := by
      have hN' : (N.flatMap Prod.snd ++ R'.drop keep ++ (N.map Prod.fst ++ [id])).Perm
          ((N.flatMap Prod.snd ++ N.map Prod.fst) ++ (R'.drop keep ++ [id])) := by
        simp only [append_assoc]
        refine List.Perm.append_left _ ?_
        rw [← append_assoc, ← append_assoc]
        exact List.Perm.append_right _ perm_append_comm
      refine hN'.trans ((hN.perm.append_right _).trans ?_)
      have hsplit : (id :: R' ++ List.range' b'.nextPage (b''.nextPage - b'.nextPage)).Perm
          (id :: (R'.take keep ++ R'.drop keep)
            ++ List.range' b'.nextPage (b''.nextPage - b'.nextPage)) := by
        rw [take_append_drop]
      refine List.Perm.trans ?_ hsplit.symm
      rw [perm_iff_count]
      intro x
      simp only [count_append, count_cons, count_nil]
      omega
    have hids : (N ++ [(id, R'.drop keep)]).flatMap Prod.snd
        = N.flatMap Prod.snd ++ R'.drop keep := by simp
    rw [hids, hfst]
    refine hgrow.trans ?_
    rcases h.drawn with ⟨-, hperm, hnext⟩ | ⟨rfl, rfl, hnext⟩
    · rw [hnext]
      exact hperm.append_right _
    · have hle := hN.stays.next
      have hcount : b''.nextPage - b.nextPage = (b''.nextPage - b'.nextPage) + 1 := by lia
      rw [hcount, List.range'_succ, hnext]
      exact perm_middle.symm
  · intro x hx
    rw [hfst] at hx
    rcases mem_append.mp hx with hx | hx
    · rcases hN.drawn x hx with ⟨hw, hm⟩ | hle
      · have hm' := mem_of_mem_take hm
        rcases h.drawn with ⟨-, hperm, -⟩ | ⟨-, rfl, -⟩
        · exact .inl ⟨hw, hperm.mem_iff.mp (.tail _ hm')⟩
        · exact .inl ⟨hw, hm'⟩
      · exact .inr (h.stays.next.trans hle)
    · obtain rfl := mem_singleton.mp hx
      rcases h.drawn with ⟨hw, hperm, -⟩ | ⟨rfl, -, -⟩
      · exact .inl ⟨hw, hperm.mem_iff.mp (.head _)⟩
      · exact .inr le_rfl
  · intro x hx
    rw [hfst, mem_append, not_or, mem_singleton] at hx
    rw [hN.rest x hx.1, h.rest x hx.2]

/-- One round of the loop, when the page drawn is written. -/
theorem settleLoop_succ {r : PageId} {rest : List PageId}
    (hR' : (b.chainPage writable (r :: rest)).2.1 = R')
    (hmut : pageMut (b.chainPage writable (r :: rest)).1
      (fun _ => .freeList head (R'.drop (splitOffAt b.pageSize R')))
      (b.chainPage writable (r :: rest)).2.2 = .ok () b'') :
    settleLoop writable (fuel + 1) (r :: rest) head b
      = settleLoop writable fuel (R'.take (splitOffAt b.pageSize R'))
          (b.chainPage writable (r :: rest)).1 b'' := by
  subst hR'
  show EStateM.bind (pageMut _ _) _ (b.chainPage writable (r :: rest)).2.2 = _
  rw [EStateM.bind, hmut]

/-- Every round takes something off the list: a page, or a page full of ids. -/
theorem Drawn.shorter (h : Drawn writable R b id R' page b') (hps : 0 < idsPerPage b.pageSize)
    (hR : R ≠ []) : (R'.take (splitOffAt b.pageSize R')).length < R.length := by
  have hpos := length_pos_of_ne_nil hR
  rw [length_take, splitOffAt]
  rcases h.drawn with ⟨-, hperm, -⟩ | ⟨-, rfl, -⟩
  · have hlen := hperm.length_eq
    rw [length_cons] at hlen
    omega
  · omega

/-- **THE LOOP** lists every id, whatever the list. -/
theorem settleLoop_chained (writable : List PageId) (hps : 0 < idsPerPage b.pageSize)
    (hfuel : R.length ≤ fuel) (hr : Ready R b) (head : PageId) :
    ∃ head' b' N, settleLoop writable fuel R head b = .ok head' b'
      ∧ Chained writable R b head head' b' N := by
  have hdone : ∀ {b : Batch} (head : PageId), AssocList.Sorted b.dirty →
      Chained writable [] b head head b [] := fun {b} head hs =>
    ⟨Stays.refl b, hs, rfl, by simp, nofun, fun _ _ => rfl⟩
  induction fuel generalizing R b head with
  | zero =>
      obtain rfl := eq_nil_of_length_eq_zero (Nat.le_zero.mp hfuel)
      exact ⟨head, b, [], rfl, hdone head hr.sorted⟩
  | succ fuel ih =>
      cases R with
      | nil => exact ⟨head, b, [], rfl, hdone head hr.sorted⟩
      | cons r rest =>
          have hd := chainPage_drawn writable (r :: rest) hr.reuse hr.sorted
          have hshort := hd.shorter hps (cons_ne_nil r rest)
          generalize hR' : (b.chainPage writable (r :: rest)).2.1 = R' at hd hshort
          obtain ⟨b₁, hmut, hd₁⟩ := hd.pageMut
            (fun _ => .freeList head (R'.drop (splitOffAt b.pageSize R')))
          obtain ⟨-, -, -, hnd, hrange⟩ := hd₁.fresh hr
          have hready : Ready (R'.take (splitOffAt b.pageSize R')) b₁ :=
            ⟨hd₁.stays.allowReuse.trans hr.reuse, hd₁.sorted, hr.two.trans hd₁.stays.next,
              hnd.sublist (take_sublist _ _), fun x hx => hrange x (mem_of_mem_take hx)⟩
          obtain ⟨head', b', N, hloop, hN⟩ := ih (hd₁.stays.pageSize.symm ▸ hps)
            (Nat.le_of_lt_succ (lt_of_lt_of_le hshort hfuel)) hready
            (b.chainPage writable (r :: rest)).1
          refine ⟨head', b', _, (settleLoop_succ hR' hmut).trans hloop, hd₁.chained hr ?_ hN⟩
          rw [length_drop, splitOffAt]
          omega

end Loop

/-! ## Settling -/

/-- Where every id of the list `R` went, `tail` being what the new stretch of
    chain is put in front of. -/
structure Settled (R : List PageId) (tail : PageId) (b b' : Batch)
    (N : FreePages) : Prop where
  pager : b'.pager = b.pager
  base : b'.base = b.base
  dataRoot : b'.dataRoot = b.dataRoot
  catalogRoot : b'.catalogRoot = b.catalogRoot
  commitPage : b'.commitPage = b.commitPage
  refsRoot : b'.refsRoot = b.refsRoot
  next : b.nextPage ≤ b'.nextPage
  sorted : AssocList.Sorted b'.dirty
  segment : Segment (fun x => AssocList.get x b'.dirty) b.pageSize b'.freelistRoot N tail
  perm : (N.flatMap Prod.snd ++ N.map Prod.fst).Perm
    (R ++ List.range' b.nextPage (b'.nextPage - b.nextPage))
  drawn : ∀ x ∈ N.map Prod.fst, (x ∈ b.reusePool ∧ x ∈ R) ∨ b.nextPage ≤ x
  rest : ∀ x, x ∉ N.map Prod.fst → AssocList.get x b'.dirty = AssocList.get x b.dirty

/-- The new stretch of chain is written. -/
theorem Settled.owned (h : Settled R tail b b' N) (hx : x ∈ N.map Prod.fst) : b'.owns x = true := by
  obtain ⟨next, ids, hpage, -⟩ := h.segment.next hx
  exact owns_iff.mpr ⟨_, hpage⟩

/-- What was written stays written. -/
theorem Settled.mono (h : Settled R tail b b' N) (hx : b.owns x = true) : b'.owns x = true := by
  by_cases hN : x ∈ N.map Prod.fst
  · exact h.owned hN
  · rw [owns, h.rest x hN]
    exact hx

/-- A page that settling wrote was a free page of the base, or is fresh. -/
theorem Settled.origin (h : Settled R tail b b' N) (hb : Books b L₀ L) (hx : b'.owns x = true) :
    x ∈ L₀.flatMap Prod.snd ∨ b.base.pageCount ≤ x := by
  by_cases hN : x ∈ N.map Prod.fst
  · rcases h.drawn x hN with ⟨hpool, -⟩ | hle
    · exact .inl (hb.free_sub x (mem_append_left _ hpool))
    · exact .inr (hb.grows.trans hle)
  · rw [owns, h.rest x hN] at hx
    exact hb.origin x hx

/-- The pages of the new stretch are inside the file. -/
theorem Settled.chain_range (h : Settled R tail b b' N) (hR : ∀ x ∈ R, 2 ≤ x ∧ x < b.nextPage)
    (htwo : 2 ≤ b.nextPage) (hx : x ∈ N.map Prod.fst) : 2 ≤ x ∧ x < b'.nextPage := by
  have hnext := h.next
  rcases mem_append.mp (h.perm.mem_iff.mp (mem_append_right _ hx)) with hx | hx
  · have := hR x hx
    exact ⟨this.1, by lia⟩
  · have := mem_range'_1.mp hx
    exact ⟨by lia, by lia⟩

/-- What settling writes are pages of the free list that lead into the file. -/
theorem Settled.pages (h : Settled R tail b b' N) (hR : ∀ x ∈ R, 2 ≤ x ∧ x < b.nextPage)
    (htwo : 2 ≤ b.nextPage) (htail : tail < b.nextPage)
    (hx : AssocList.get x b'.dirty = some page) :
    AssocList.get x b.dirty = some page
      ∨ 2 ≤ x ∧ ∃ next ids, page = .freeList next ids ∧ next < b'.nextPage := by
  by_cases hN : x ∈ N.map Prod.fst
  · obtain ⟨next, ids, hpage, hnext⟩ := h.segment.next hN
    refine .inr ⟨(h.chain_range hR htwo hN).1, next, ids, ?_, ?_⟩
    · exact Option.some.inj (hx.symm.trans hpage)
    · rcases hnext with rfl | hmem
      · exact lt_of_lt_of_le htail h.next
      · exact (h.chain_range hR htwo hmem).2
  · rw [h.rest x hN] at hx
    exact .inl hx

/-- What settling asks of a batch. -/
structure Settles (b : Batch) : Prop where
  room : 0 < idsPerPage b.pageSize
  sorted : AssocList.Sorted b.dirty
  two : 2 ≤ b.nextPage
  nodup : b.settleList.1.Nodup
  range : ∀ x ∈ b.settleList.1, 2 ≤ x ∧ x < b.nextPage
  idle : b.touchedFreelist = false → b.freelistOverride = none →
    b.settleList = ([], b.freelistRoot)

/-- **SETTLING** never fails, and lists every id. -/
theorem settleFreelist_settled (h : Settles b) :
    ∃ b' N, settleFreelist b = .ok () b' ∧ Settled b.settleList.1 b.settleList.2 b b' N := by
  by_cases hskip : (!b.touchedFreelist && b.deferredFree.isEmpty && b.freelistOverride.isNone)
    = true
  · simp only [Bool.and_eq_true, Bool.not_eq_true'] at hskip
    have hlist := h.idle hskip.1.1 (Option.isNone_iff_eq_none.mp hskip.2)
    refine ⟨b, [], ?_, ?_⟩
    · show (if (!b.touchedFreelist && b.deferredFree.isEmpty && b.freelistOverride.isNone) = true
          then (pure () : BatchM Unit) else _) b = _
      rw [if_pos (by simp [hskip.1.1, hskip.1.2, hskip.2])]
      rfl
    · rw [hlist]
      exact ⟨rfl, rfl, rfl, rfl, rfl, rfl, le_rfl, h.sorted, rfl, by simp, nofun,
        fun _ _ => rfl⟩
  · have hready : Ready b.settleList.1 b.stopReuse := ⟨rfl, h.sorted, h.two, h.nodup, h.range⟩
    obtain ⟨head, b', N, hloop, hN⟩ := settleLoop_chained b.reusePool
      (b := b.stopReuse) h.room le_rfl hready b.settleList.2
    refine ⟨{ b' with freelistRoot := head }, N, ?_, hN.stays.pager, hN.stays.base,
      hN.stays.dataRoot, hN.stays.catalogRoot, hN.stays.commitPage, hN.stays.refsRoot,
      hN.stays.next, hN.sorted, hN.segment, hN.perm, hN.drawn, hN.rest⟩
    show (if (!b.touchedFreelist && b.deferredFree.isEmpty && b.freelistOverride.isNone) = true
      then (pure () : BatchM Unit) else _) b = _
    rw [if_neg hskip]
    show EStateM.bind (settleLoop _ _ _ _) _ b.stopReuse = _
    rw [EStateM.bind, hloop]
    rfl

/-- Without an override the books say what there is to list. -/
theorem books_settles (h : Books b L₀ L) (hL₀ : Chain b.pager b.base.freelistRoot L₀)
    (hroom : 0 < idsPerPage b.pageSize) (hover : b.freelistOverride = none) : Settles b := by
  have hlist : b.settleList = (b.reusePool ++ b.deferredFree, b.chainCursor) := by
    rw [settleList, hover]
  have hsub : (b.reusePool ++ b.deferredFree).Sublist (freeIds b L ++ chainIds b L) :=
    (sublist_append_left _ _).append (sublist_append_right _ _)
  refine ⟨hroom, h.sorted, h.two.trans h.grows, ?_, ?_, ?_⟩
  · rw [hlist]
    exact h.nodup.sublist hsub
  · rw [hlist]
    intro x hx
    have := h.range x (hsub.subset hx)
    exact ⟨this.1, lt_of_lt_of_le this.2 h.grows⟩
  · intro htouched _
    obtain ⟨hpool, hdeferred⟩ := h.idle htouched
    have hhead : b.chainCursor = b.base.freelistRoot := by
      have hchain := h.chain
      rw [h.whole htouched] at hchain
      cases L₀ with
      | nil => exact Eq.trans hchain (Eq.symm hL₀)
      | cons e rest => exact hchain.1.symm.trans hL₀.1
    rw [hlist, hpool, hdeferred, hhead, h.root]
    rfl

end QuantyFreeList
