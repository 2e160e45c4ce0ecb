import QuantyDb.InsertSimProofs
import QuantyDb.TreeFitsProofs

/-! # Deletion, page by page

    `delete_rec` on the pages of a tree in order ends as `Tree.delete` on its
    shape.  An emptied leaf and a merged neighbour leave the tree without
    being written: their pages are simply not named any more. -/

namespace QuantyDeleteSim

open QuantyKey QuantyPage QuantyPager QuantyPagerInv QuantyBtree QuantyTree QuantyTreeMap List Fan
open QuantyTreeFits QuantyBtreeSim QuantyInsertSim CowHeap Located

/-- How a call that deletes from the pages `C` has to end, given how the
    deletion from the tree ends. -/
def DeletePost (b : Batch) (L : FreePages) (C : List (PageId × Page))
    (r : EStateM.Result Error Batch Delete) : Removed → Prop
  | .notFound => ∃ b' L', r = .ok .notFound b' ∧ Work b L C b' L' C
  | .updated s => ∃ (t : Located) (b' : Batch) (L' : FreePages),
      r = .ok (.updated t.page) b' ∧ t.shape = s ∧ Work b L C b' L' t.pages
  | .emptied => ∃ b' L', r = .ok .emptied b' ∧ Work b L C b' L' []
  | .mixed => ∃ page b', r = .error (.corrupted page "sibling nodes of different kinds") b'

/-! ## Merging -/

/-- Two located neighbours as one, on the page `x`. -/
def mergeLocated (sep : Key) (x : PageId) : Located → Located → Option Located
  | .leaf _ l, .leaf _ r => some (.leaf x (l ++ r))
  | .branch _ lf l, .branch _ rf r => some (.branch x lf (l ++ (sep, rf) :: r))
  | _, _ => none

/-- Nodes, shapes and located trees merge alike. -/
theorem mergeLocated_spec (sep : Key) (x : PageId) (l r : Located) :
    (mergeLocated sep x l r).map shape = mergeTrees sep l.shape r.shape
      ∧ (mergeLocated sep x l r).map node = mergeNodes sep l.node r.node
      ∧ ∀ t, mergeLocated sep x l r = some t → t.page = x ∧ t.under = l.under ++ r.under := by
  cases l with
  | leaf lp le =>
      cases r with
      | leaf rp re =>
          refine ⟨by simp [mergeLocated, mergeTrees], rfl, ?_⟩
          rintro t ⟨rfl⟩
          exact ⟨rfl, rfl⟩
      | branch rp rf re =>
          exact ⟨by simp [mergeLocated, mergeTrees], rfl, fun t ht => nomatch ht⟩
  | branch lp lf le =>
      cases r with
      | leaf rp re =>
          exact ⟨by simp [mergeLocated, mergeTrees], rfl, fun t ht => nomatch ht⟩
      | branch rp rf re =>
          refine ⟨by simp [mergeLocated, mergeTrees], ?_, ?_⟩
          · simp [mergeLocated, mergeNodes, node]
          · rintro t ⟨rfl⟩
            refine ⟨rfl, ?_⟩
            show slotPages (slots lf (le ++ (sep, rf) :: re)) = _
            rw [slots_append, slotPages_append]
            simp [under, slots]

section Merge

variable {b : Batch} {L : FreePages}

/-- How offering a merge to a child has to end. -/
def MergePost (b : Batch) (L : FreePages) (C : List (PageId × Page))
    (r : EStateM.Result Error Batch (PageId × List (Key × PageId))) :
    Option (Tree × List (Key × Tree)) → Prop
  | none => ∃ page b', r = .error (.corrupted page "sibling nodes of different kinds") b'
  | some x => ∃ (f : Located) (es : List (Key × Located)) (b' : Batch)
      (L' : FreePages),
      r = .ok (f.page, es.map (Prod.map id page)) b'
        ∧ f.shape = x.1 ∧ es.map (Prod.map id shape) = x.2
        ∧ Work b L C b' L' (slotPages (slots f es))

theorem mergePair_post (hs : Sound b L) (f : Located) (es : List (Key × Located)) {li : Nat}
    (hli : li < es.length) (hh : Holds (view b L) (slotPages (slots f es)))
    (hf : f.shape.topInOrder) (hes : ∀ e ∈ es, e.2.shape.topInOrder) :
    MergePost b L (slotPages (slots f es))
      (mergePair f.page (es.map (Prod.map id page)) li b)
      (joinPair b.pageSize f.shape (es.map (Prod.map id shape)) li) := by
  obtain ⟨pre, s, hc⟩ := exists_cut f es (Nat.le_of_lt hli)
  obtain ⟨⟨sep, r⟩, hget⟩ : ∃ e, es[li]? = some e := ⟨es[li], getElem?_eq_getElem hli⟩
  have hdrop : es.drop li = (sep, r) :: es.drop (li + 1) := by
    rw [drop_eq_getElem_cons hli]
    congr 1
    exact Option.some.inj ((getElem?_eq_getElem hli).symm.trans hget)
  -- the pages of the pair, between those of the other children
  have hpages : slotPages (slots f es)
      = slotPages pre ++ (((child f es li).pages ++ r.pages)
        ++ slotPages (entrySlots (es.drop (li + 1)))) := by
    rw [hc.eq, hdrop]
    simp
  have hpair : Holds (view b L) ((child f es li).pages ++ r.pages) := by
    rw [hpages] at hh
    exact hh.sublist ((sublist_append_left _ _).trans (sublist_append_right _ _))
  have hl : decodePage (child f es li).page b = .ok (child f es li).node b :=
    decodePage_ok hpair (mem_append_left _ (mem_pages _)) (inOrder_node
      (child_of_forall (P := fun t : Located => t.shape.topInOrder) hf hes li))
  have hr : decodePage r.page b = .ok r.node b :=
    decodePage_ok hpair (mem_append_right _ (mem_pages _)) (inOrder_node
      (hes (sep, r) (mem_of_getElem? hget)))
  obtain ⟨hshape, hnode, hunder⟩ :=
    mergeLocated_spec sep (child f es li).page (child f es li) r
  unfold mergePair joinPair
  rw [getElem?_map, getElem?_map, hget]
  simp only [Option.map_some, Prod.map, id]
  rw [child_map, child_map, bind_ok hl, bind_ok hr, ← hshape, ← hnode]
  cases hm : mergeLocated sep (child f es li).page (child f es li) r with
  | none => exact ⟨_, b, rfl⟩
  | some m =>
      simp only [Option.map_some]
      rw [get_bind, encodedSize_node]
      by_cases hbig : b.pageSize * 7 / 8 < m.shape.size
      · rw [if_pos hbig, if_pos hbig]
        exact ⟨f, es, b, L, rfl, rfl, rfl, Work.refl hs hh⟩
      · rw [if_neg hbig, if_neg hbig]
        have hfit : m.node.encodedSize ≤ b.pageSize := by
          rw [encodedSize_node]; omega
        have hone : Holds (view b L)
            [((child f es li).page, .node (child f es li).node)] :=
          hpair.sublist (singleton_sublist.mpr
            (mem_append_left _ (mem_pages _)))
        obtain ⟨x, b', L', hrun, hw⟩ :=
          writeNode_ok hs (some (child f es li).page) hone ⟨_, rfl⟩ hfit
        obtain ⟨hshape', hnode', hunder'⟩ := mergeLocated_spec sep x (child f es li) r
        -- the same merge, on the page that it was written to
        obtain ⟨m', hm', hms, hmn⟩ : ∃ m', mergeLocated sep x (child f es li) r = some m'
            ∧ m'.shape = m.shape ∧ m'.node = m.node := by
          rw [← hshape, hm] at hshape'
          rw [← hnode, hm] at hnode'
          obtain ⟨m', hm', hs'⟩ := Option.map_eq_some_iff.mp hshape'
          rw [hm'] at hnode'
          exact ⟨m', hm', hs', Option.some.inj hnode'⟩
        obtain ⟨hmx, hmu⟩ := hunder' m' hm'
        refine ⟨(setChild f es li m').1, (setChild f es li m').2.eraseIdx li, b', L',
          ?_, ?_, ?_, ?_⟩
        · rw [bind_ok hrun, ← hmx]
          show EStateM.Result.ok _ _ = _
          rw [setChild_map, eraseIdx_map]
        · show _ = (setChild f.shape (es.map (Prod.map id shape)) li m.shape).1
          rw [← hms, setChild_map]
        · show _ = (setChild f.shape (es.map (Prod.map id shape)) li
            m.shape).2.eraseIdx li
          rw [← hms, setChild_map, eraseIdx_map]
        · rw [hpages, hc.merge, slotPages_append, slotPages_cons]
          refine Work.frame_mid ?_ (hpages ▸ hh)
          show Work b L _ b' L' m'.pages
          rw [pages_eq (child f es li), pages_eq m', hmx, hmn, hmu]
          have hpair' := hpair
          rw [pages_eq (child f es li)] at hpair'
          refine (hw.frame hpair').drop ?_
          rw [pages_eq r]
          exact ((List.Sublist.refl _).append (sublist_cons_self _ _)).cons_cons _

theorem mergeUnderfullChild_post (hs : Sound b L) (f : Located) (es : List (Key × Located))
    (idx : Nat) (hidx : idx ≤ es.length)
    (hh : Holds (view b L) (slotPages (slots f es)))
    (hf : f.shape.topInOrder) (hes : ∀ e ∈ es, e.2.shape.topInOrder) :
    MergePost b L (slotPages (slots f es))
      (mergeUnderfullChild f.page (es.map (Prod.map id page)) idx b)
      (mergeChild b.pageSize f.shape (es.map (Prod.map id shape)) idx) := by
  have hunchanged : MergePost b L (slotPages (slots f es))
      (.ok (f.page, es.map (Prod.map id page)) b)
      (some (f.shape, es.map (Prod.map id shape))) :=
    ⟨f, es, b, L, rfl, rfl, rfl, Work.refl hs hh⟩
  unfold mergeUnderfullChild mergeChild
  rw [isEmpty_map, isEmpty_map, length_map, length_map, child_map,
    child_map]
  by_cases hempty : es.isEmpty = true
  · rw [if_pos hempty, if_pos (.inl hempty)]
    exact hunchanged
  · rw [if_neg hempty]
    have hchild : decodePage (child f es idx).page b = .ok (child f es idx).node b := by
      obtain ⟨pre, s, hc⟩ := exists_cut f es hidx
      refine decodePage_ok hh ?_ (inOrder_node
        (child_of_forall (P := fun t : Located => t.shape.topInOrder) hf hes idx))
      rw [hc.eq, slotPages_append, slotPages_cons]
      exact mem_append_right _ (mem_append_left _ (mem_pages _))
    rw [bind_ok hchild, get_bind, encodedSize_node]
    by_cases hbig : b.pageSize / 4 ≤ (child f es idx).shape.size
    · rw [if_pos hbig, if_pos (.inr hbig)]
      exact hunchanged
    · rw [if_neg hbig, if_neg (fun h => h.elim hempty hbig)]
      refine mergePair_post hs f es ?_ hh hf hes
      have hpos : 0 < es.length := by
        cases es with
        | nil => exact absurd rfl hempty
        | cons e es => simp
      unfold mergeAt
      split <;> omega

end Merge

/-! ## The descent -/

section Descent

variable {b : Batch} {L : FreePages} {p : PageId} {q : Page}

/-- Closing a branch: written back, or gone when a single child is left. -/
theorem settleBranch_post (hs : Sound b L) (f : Located) (es : List (Key × Located))
    (hh : Holds (view b L) ((p, q) :: slotPages (slots f es)))
    (hfit : PAGE_HEADER_LEN + (8 + branchCells es) ≤ b.pageSize) :
    DeletePost b L ((p, q) :: slotPages (slots f es))
      (settleBranch p f.page (es.map (Prod.map id page)) b)
      (.updated (collapse f.shape (es.map (Prod.map id shape)))) := by
  unfold settleBranch collapse
  rw [isEmpty_map, isEmpty_map]
  by_cases hempty : es.isEmpty = true
  · rw [if_pos hempty, if_pos hempty]
    obtain rfl := isEmpty_iff.mp hempty
    refine ⟨f, b, L, rfl, rfl, (Work.refl hs hh).drop ?_⟩
    rw [slots, slotPages_cons]
    exact (sublist_append_left _ _).trans (sublist_cons_self _ _)
  · rw [if_neg hempty, if_neg hempty]
    have hhp : Holds (view b L) [(p, q)] := hh.sublist (singleton_sublist.mpr (by simp))
    obtain ⟨x, b', L', hrun, hw⟩ := writeNode_ok
      (n := .branch f.page (es.map (Prod.map id page))) hs (some p) hhp ⟨q, rfl⟩
      (by rw [Node.encodedSize, branchCells_map]; exact hfit)
    refine ⟨.branch x f es, b', L', bind_ok hrun, shape_branch x f es, ?_⟩
    rw [pages_branch]
    exact hw.frame hh

/-- **DELETION FROM A LEAF**. -/
theorem deleteRec_leaf (hs : Sound b L) {es : List (Key × ValueRef)}
    (hh : Holds (view b L) [(p, .node (.leaf es))]) (ho : AssocList.Sorted es)
    (hfit : (Tree.leaf es).size ≤ b.pageSize) (key : Key) (fuel : Nat) :
    DeletePost b L [(p, .node (.leaf es))] (deleteRec key (fuel + 1) p b)
      ((Tree.leaf es).delete b.pageSize key) := by
  obtain ⟨b₁, hload, hw⟩ := loadNode_ok (n := .leaf es) hs hh
    (mem_singleton.mpr rfl) ((ascending_iff_sorted es).mpr ho)
  obtain ⟨hfound, -, hdel⟩ := binarySearch_spec ho key (.inline [])
  rw [deleteRec, bind_ok hload, Tree.delete, ← hfound]
  simp only
  cases hb : binarySearch key es with
  | mk i found =>
      rw [hb] at hdel
      cases found with
      | false => exact ⟨b₁, L, rfl, hw⟩
      | true =>
          obtain ⟨-, hdel⟩ := hdel rfl
          simp only [hdel, if_true]
          by_cases hempty : (AssocList.del key es).isEmpty = true
          · rw [if_pos hempty, if_pos hempty]
            exact ⟨b₁, L, rfl, hw.drop (nil_sublist _)⟩
          · rw [if_neg hempty, if_neg hempty]
            obtain ⟨x, b₂, L₂, hrun, hw₂⟩ := writeNode_ok
              (n := .leaf (AssocList.del key es)) hw.sound (some p) hw.holds ⟨_, rfl⟩
              (by rw [hw.stays.pageSize]; exact (Nat.add_le_add_left
                    (leafCells_sublist filter_sublist) _).trans hfit)
            refine ⟨.leaf x (AssocList.del key es), b₂, L₂, bind_ok hrun,
              shape_leaf .., ?_⟩
            rw [pages_leaf]
            exact hw.trans hw₂

/-- Work done before the call counts. -/
theorem DeletePost.after {b₀ : Batch} {L₀ : FreePages}
    {C₀ C : List (PageId × Page)} {r : EStateM.Result Error Batch Delete} {o : Removed}
    (hw : Work b₀ L₀ C₀ b L C) (hC : o = .notFound → C = C₀) (h : DeletePost b L C r o) :
    DeletePost b₀ L₀ C₀ r o := by
  cases o with
  | notFound =>
      obtain ⟨b', L', hr, hw'⟩ := h
      have := hw.trans hw'
      rw [hC rfl] at this
      exact ⟨b', L', hr, this⟩
  | updated s =>
      obtain ⟨t, b', L', hr, hs, hw'⟩ := h
      exact ⟨t, b', L', hr, hs, hw.trans hw'⟩
  | emptied =>
      obtain ⟨b', L', hr, hw'⟩ := h
      exact ⟨b', L', hr, hw.trans hw'⟩
  | mixed => exact h

variable {f : Located} {es : List (Key × Located)} {i : Nat} {pre : List (Option Key × Located)}
  {s : Option Key}

/-- A branch whose child was replaced offers the new child a merge. -/
theorem prune_updated (hs : Sound b L) (hc : Fan.Cut f es i pre s) (hi : i ≤ es.length)
    (t : Located) (hfit : PAGE_HEADER_LEN + (8 + branchCells es) ≤ b.pageSize)
    (hf : f.shape.topInOrder) (hes : ∀ e ∈ es, e.2.shape.topInOrder) (ht : t.shape.topInOrder)
    (hh : Holds (view b L) (((p, q) :: slotPages pre)
      ++ (t.pages ++ slotPages (entrySlots (es.drop i))))) :
    DeletePost b L (((p, q) :: slotPages pre)
        ++ (t.pages ++ slotPages (entrySlots (es.drop i))))
      (prune p f.page (es.map (Prod.map id page)) i (.updated t.page) b)
      (pruneChild b.pageSize f.shape (es.map (Prod.map id shape)) i
        (.updated t.shape)) := by
  have hslots := slotPages_setChild hc t
  rw [cons_append, ← hslots] at hh ⊢
  obtain ⟨hf', hes'⟩ := setChild_forall (P := fun t : Located => t.shape.topInOrder)
    hf hes ht i
  have hmerge := mergeUnderfullChild_post hs (setChild f es i t).1 (setChild f es i t).2
    i (by rw [← length_map Prod.fst, keys_setChild, length_map]; exact hi)
    (hh.sublist (sublist_cons_self _ _)) hf' hes'
  rw [prune, pruneChild, setChild_map, setChild_map]
  simp only
  cases hm : mergeChild b.pageSize (setChild f es i t).1.shape
      ((setChild f es i t).2.map (Prod.map id shape)) i with
  | none =>
      rw [hm] at hmerge
      obtain ⟨page, b', hrun⟩ := hmerge
      exact ⟨page, b', bind_error hrun⟩
  | some x =>
      obtain ⟨f', es'⟩ := x
      rw [hm] at hmerge
      obtain ⟨f₁, es₁, b₁, L₁, hrun, rfl, rfl, hw⟩ := hmerge
      have hw' : Work b L ((p, q) :: slotPages (slots (setChild f es i t).1
          (setChild f es i t).2)) b₁ L₁ ((p, q) :: slotPages (slots f₁ es₁)) := by
        have := hw.frame_mid (A := [(p, q)]) (B := []) (by simpa using hh)
        simpa using this
      rw [bind_ok hrun]
      refine DeletePost.after hw' (by rintro ⟨⟩) (settleBranch_post hw'.sound f₁ es₁
        hw'.holds ?_)
      have hcells := mergeChild_cells hm
      rw [branchCells_map, branchCells_map, branchCells_setChild] at hcells
      rw [hw'.stays.pageSize]
      omega

/-- A branch whose child is gone. -/
theorem prune_emptied (hs : Sound b L) (hc : Fan.Cut f es i pre s)
    (hfit : PAGE_HEADER_LEN + (8 + branchCells es) ≤ b.pageSize)
    (hh : Holds (view b L) (((p, q) :: slotPages pre)
      ++ slotPages (entrySlots (es.drop i)))) :
    DeletePost b L (((p, q) :: slotPages pre)
        ++ slotPages (entrySlots (es.drop i)))
      (prune p f.page (es.map (Prod.map id page)) i .emptied b)
      (pruneChild b.pageSize f.shape (es.map (Prod.map id shape)) i .emptied) := by
  cases i with
  | zero =>
      obtain ⟨rfl, -⟩ := hc.first rfl
      cases es with
      | nil => exact ⟨b, L, rfl, (Work.refl hs hh).drop (nil_sublist _)⟩
      | cons e rest =>
          obtain ⟨k, c⟩ := e
          refine settleBranch_post hs c rest hh ?_
          rw [branchCells_cons] at hfit
          omega
  | succ j =>
      have hslots : slotPages (slots f (es.eraseIdx j)) = slotPages pre
          ++ slotPages (entrySlots (es.drop (j + 1))) := by
        rw [hc.drop j rfl, slotPages_append]
      rw [cons_append, ← hslots] at hh ⊢
      rw [prune, pruneChild, eraseIdx_map, eraseIdx_map]
      have hle := branchCells_sublist (eraseIdx_sublist es j)
      exact settleBranch_post hs f (es.eraseIdx j) hh (by omega)

end Descent

/-- **DELETION**: the pages end as the tree does. -/
theorem deleteRec_post (key : Key) (t : Located) :
    ∀ {b : Batch} {L : FreePages} {fuel : Nat}, Sound b L →
      Holds (view b L) t.pages → t.shape.Ordered → t.shape.Fits b.pageSize →
      (t.path key).length ≤ fuel →
      DeletePost b L t.pages (deleteRec key fuel t.page b)
        (t.shape.delete b.pageSize key) := by
  induction t using descend key with
  | hleaf p es =>
      intro b L fuel hs hh ho hf hfuel
      rw [path_leaf] at hfuel
      rw [pages_leaf] at hh ⊢
      rw [shape_leaf] at ho hf ⊢
      obtain ⟨fuel, rfl⟩ : ∃ n, fuel = n + 1 := ⟨fuel - 1, by simp at hfuel; omega⟩
      exact deleteRec_leaf hs hh (Tree.all_leaf.mp (inOrder_of_ordered ho)) (fits_leaf.mp hf)
        key fuel
  | hbranch p f es ih =>
      intro b L fuel hs hh ho hf hfuel
      rw [path_branch, length_cons] at hfuel
      obtain ⟨fuel, rfl⟩ : ∃ n, fuel = n + 1 := ⟨fuel - 1, by omega⟩
      rw [shape_branch] at ho hf
      obtain ⟨htop, hof, hoes⟩ := Tree.all_branch.mp (inOrder_of_ordered ho)
      obtain ⟨hsize, hff, hfes⟩ := fits_branch.mp hf
      rw [Tree.size, branchCells_map] at hsize
      -- the branch is loaded first, which leaves every page as it is
      obtain ⟨b₀, hload, hw₀⟩ := loadNode_ok (n := (branch p f es).node) (p := p) hs hh
        (mem_pages _) (inOrder_node (by rw [shape_branch]; exact htop))
      rw [shape_branch, delete_branch, shape_branchChild, rank_map,
        show b.pageSize = b₀.pageSize from hw₀.stays.pageSize.symm]
      rw [show b.pageSize = b₀.pageSize from hw₀.stays.pageSize.symm] at hsize hff hfes
      refine DeletePost.after hw₀ (fun _ => rfl) ?_
      show DeletePost b₀ L _ (deleteRec key (fuel + 1) p b) _
      rw [deleteRec, bind_ok hload]
      clear hload
      replace hh := hw₀.holds
      replace hs := hw₀.sound
      clear hw₀
      obtain ⟨pre, s, hc⟩ := exists_cut f es (rank_le_length key es)
      have hord : (branchChild f es key).shape.Ordered := by
        rw [← shape_branchChild]
        exact ordered_child ho (by simpa using rank_le_length key es)
      have hchild : DeletePost b₀ L (branchChild f es key).pages
          (deleteRec key fuel (branchChild f es key).page b₀)
          ((branchChild f es key).shape.delete b₀.pageSize key) := by
        refine ih hs (holds_child hc hh) hord ?_ (by omega)
        exact child_of_forall (P := fun t : Located => t.shape.Fits b₀.pageSize) hff
          (fun e he => hfes _ (mem_map_of_mem he)) _
      rw [node]
      simp only
      rw [page_branchChild]
      cases hr : (branchChild f es key).shape.delete b₀.pageSize key with
      | notFound =>
          rw [hr] at hchild
          obtain ⟨b₁, L₁, hrun, hw⟩ := hchild
          refine ⟨b₁, L₁, ?_, ?_⟩
          · rw [bind_ok hrun]; rfl
          · rw [pages_cut hc]
            exact pages_cut hc ▸ work_child (p := p) hc hh hw
      | mixed =>
          rw [hr] at hchild
          obtain ⟨page, b₁, hrun⟩ := hchild
          exact ⟨page, b₁, bind_error hrun⟩
      | updated c =>
          rw [hr] at hchild
          obtain ⟨t', b₁, L₁, hrun, rfl, hw⟩ := hchild
          have hw₁ := work_child (p := p) hc hh hw
          rw [bind_ok hrun, rank_map, ← hw₁.stays.pageSize]
          refine DeletePost.after hw₁ ?_ (prune_updated hw₁.sound hc (rank_le_length key es) t'
            (by rw [hw₁.stays.pageSize]; exact hsize) (Tree.All.top hof)
            (fun e he => Tree.All.top (hoes _ (mem_map_of_mem he)))
            (Tree.All.top (inOrder_of_ordered (delete_ordered hord hr))) hw₁.holds)
          simp only [pruneChild]
          split <;> rintro ⟨⟩
      | emptied =>
          rw [hr] at hchild
          obtain ⟨b₁, L₁, hrun, hw⟩ := hchild
          have hw₁ := work_child (p := p) hc hh hw
          rw [bind_ok hrun, rank_map, ← hw₁.stays.pageSize]
          refine DeletePost.after hw₁ ?_ (prune_emptied hw₁.sound hc
            (by rw [hw₁.stays.pageSize]; exact hsize) hw₁.holds)
          simp only [pruneChild]
          split <;> rintro ⟨⟩

end QuantyDeleteSim
