import QuantyDb.BtreeSimProofs

/-! # Insertion, page by page

    `insert_rec` on the pages of a tree ends as `Tree.insert` on its shape.
    The three ways a leaf can take an entry (in place, rewritten, split) are
    one for the tree, and a branch whose child kept its page is not written at
    all; the tree does not see that either. -/

namespace QuantyInsertSim

open QuantyKey QuantyPage QuantyPager QuantyPagerInv QuantyBtree QuantyTree QuantyTreeMap List Fan
open AssocList
open QuantyBtreeSim CowHeap Located

/-! ## A leaf -/

section Leaf

variable {b : Batch} {L : FreePages} {p : PageId}
  {es : List (Key × ValueRef)}

/-- What the in-place insertion may answer: nothing, a duplicate, or the page
    with the new cell in it. -/
theorem insertInPlace_spec (hs : Sound b L) (hh : Holds (view b L) [(p, .node (.leaf es))])
    (ho : AssocList.Sorted es) (key : Key) (v : ValueRef) (u : Bool) :
    ∃ r b', insertInPlace p key v u b = .ok r b'
      ∧ ((r = none ∧ Work b L [(p, .node (.leaf es))] b' L [(p, .node (.leaf es))])
        ∨ (r = some .duplicate ∧ u = true ∧ (AssocList.get key es).isSome = true
          ∧ Work b L [(p, .node (.leaf es))] b' L [(p, .node (.leaf es))])
        ∨ (r = some (.done p) ∧ AssocList.get key es = none ∧ b'.owns p = true
          ∧ (Tree.leaf (put key v es)).size ≤ b.pageSize
          ∧ Work b L [(p, .node (.leaf es))] b' L
            [(p, .node (.leaf (put key v es)))])) := by
  have hp := Holds.pageBytes hh (mem_singleton.mpr rfl)
  unfold insertInPlace
  cases hk : AssocList.get p b.nodes with
  | none => exact ⟨none, b, rfl, .inl ⟨rfl, Work.refl hs hh⟩⟩
  | some x =>
      obtain ⟨m, z⟩ := x
      obtain ⟨rfl, hd, rfl⟩ := kept_eq hs hp hk
      obtain ⟨sp, hrec⟩ := record_eq p b
      obtain ⟨hfound, hins, -⟩ := binarySearch_spec ho key v
      have hquiet : Work b L [(p, .node (.leaf es))] (b.record p) L [(p, .node (.leaf es))] := by
        rw [hrec]
        exact work_quiet hs hh sp b.nodes fun _ _ hx => .inl hx
      simp only [hd]
      cases hb : binarySearch key es with
      | mk i found =>
          rw [hb] at hfound hins
          cases found with
          | true =>
              simp only
              cases u with
              | true => exact ⟨_, _, rfl, .inr (.inl ⟨rfl, rfl, hfound.symm, hquiet⟩)⟩
              | false => exact ⟨_, _, rfl, .inl ⟨rfl, hquiet⟩⟩
          | false =>
              have hnone : AssocList.get key es = none := by simpa using hfound.symm
              have hsize : (Tree.leaf (put key v es)).size
                  = (Node.leaf es).encodedSize + leafCellSize key v := by
                rw [Tree.size, Node.encodedSize, leafCells_put hnone]
                omega
              simp only
              split
              · next hfit =>
                -- the cell goes into the page and into the kept node at once
                have hfit' : (Tree.leaf (put key v es)).size ≤ b.pageSize := by
                  rw [hsize]
                  rw [hrec] at hfit
                  exact hfit
                refine ⟨_, _, rfl, .inr (.inr ⟨rfl, hnone, ?_, hfit', ?_⟩)⟩
                · show (AssocList.get p (put p _ _)).isSome = true
                  rw [get_put, if_pos rfl]
                  rfl
                rw [hrec]
                have hcell : insertCell i key v (.node (.leaf es))
                    = .node (.leaf (put key v es)) := by
                  rw [insertCell, hins rfl]
                rw [hcell, hins rfl]
                refine work_write hs hd sp ?_
                intro x n hx
                rw [get_put] at hx
                split at hx
                · next heq =>
                  cases hx
                  exact .inr ⟨heq, rfl, hsize.symm⟩
                · next hne => exact .inl ⟨hne, hx⟩
              · exact ⟨_, _, rfl, .inl ⟨rfl, hquiet⟩⟩

theorem updateLeaf_eq (ho : AssocList.Sorted es) (key : Key) (v : ValueRef) (u : Bool) :
    updateLeaf p key v u es
      = if u && (AssocList.get key es).isSome then pure .duplicate
        else finishLeaf p (put key v es) := by
  obtain ⟨hfound, hins, hmod⟩ := binarySearch_spec ho key v
  unfold updateLeaf
  cases hb : binarySearch key es with
  | mk i found =>
      rw [hb] at hfound hins hmod
      rw [← hfound]
      cases found with
      | true => rw [← (hmod rfl).1]; cases u <;> rfl
      | false => rw [← hins rfl]; cases u <;> rfl

/-- **INSERTION INTO A LEAF**. -/
theorem insertRec_leaf (hs : Sound b L) (hh : Holds (view b L) [(p, .node (.leaf es))])
    (ho : AssocList.Sorted es) (key : Key) (v : ValueRef) (u : Bool) (fuel : Nat) :
    InsertPost key b L [(p, .node (.leaf es))] (insertRec key v u (fuel + 1) p b)
      ((Tree.leaf es).insert b.pageSize key v u) := by
  have hp := Holds.pageBytes hh (mem_singleton.mpr rfl)
  have hkey : (AssocList.get key (put key v es)).isSome = true := by
    rw [get_put, if_pos rfl]
    rfl
  have hdesc : liftRead (descent p key b) b = .ok none b := by
    rw [descent_eq hs hp]; rfl
  obtain ⟨r, b₁, hrun, hcases⟩ := insertInPlace_spec hs hh ho key v u
  rw [insertRec, get_bind, bind_ok hdesc, Tree.insert]
  simp only
  rw [bind_ok hrun]
  rcases hcases with ⟨rfl, hw⟩ | ⟨rfl, rfl, hsome, hw⟩ | ⟨rfl, hnone, hown, hfit, hw⟩
  · -- the long way: decode, change, write
    obtain ⟨b₂, hload, hw₂⟩ := loadNode_ok (n := .leaf es) hw.sound hw.holds
      (mem_singleton.mpr rfl) ((ascending_iff_sorted es).mpr ho)
    have hw' := hw.trans hw₂
    simp only
    rw [bind_ok hload]
    show InsertPost key b L _ (updateLeaf p key v u es b₂) _
    rw [updateLeaf_eq ho]
    by_cases hdup : (u && (AssocList.get key es).isSome) = true
    · rw [if_pos hdup, if_pos hdup]
      exact ⟨b₂, L, rfl, hw'⟩
    · rw [if_neg hdup, if_neg hdup]
      have hfin := finishLeaf_post hw'.sound hw'.holds (put key v es) hkey
      rw [hw'.stays.pageSize] at hfin
      exact hfin.after hw' fun hd => absurd hd (closeLeaf_ne_duplicate _ _)
  · rw [hsome]
    exact ⟨b₁, L, rfl, hw⟩
  · have hclose : closeLeaf b.pageSize (put key v es)
        = .done (.leaf (put key v es)) := if_pos hfit
    rw [hnone]
    simp only [Option.isSome_none, Bool.and_false, hclose]
    refine ⟨.leaf p (put key v es), b₁, L, rfl, shape_leaf .., ?_⟩
    rw [pages_leaf]
    exact ⟨hw, p, _, mem_singleton.mpr rfl, hkey, hown⟩

end Leaf

/-! ## A branch -/

section Branch

variable {b b' : Batch} {L L' : FreePages} {p : PageId} {f : Located}
  {es : List (Key × Located)} {i : Nat} {pre : List (Option Key × Located)} {s : Option Key}

/-- Work on a child is work on the branch. -/
theorem work_child (hc : Fan.Cut f es i pre s)
    (hh : Holds (view b L) (branch p f es).pages) {X : List (PageId × Page)}
    (hw : Work b L (child f es i).pages b' L' X) :
    Work b L (branch p f es).pages b' L'
      (((p, .node (branch p f es).node) :: slotPages pre)
        ++ (X ++ slotPages (entrySlots (es.drop i)))) := by
  rw [pages_cut hc] at hh ⊢
  exact hw.frame_mid hh

theorem holds_child (hc : Fan.Cut f es i pre s)
    (hh : Holds (view b L) (branch p f es).pages) :
    Holds (view b L) (child f es i).pages := by
  rw [pages_cut hc] at hh
  exact hh.sublist ((sublist_append_left _ _).trans (sublist_append_right _ _))

/-- The slots of a branch with one child replaced, page by page. -/
theorem slotPages_setChild (hc : Fan.Cut f es i pre s) (t : Located) :
    slotPages (slots (setChild f es i t).1 (setChild f es i t).2)
      = slotPages pre
        ++ (t.pages ++ slotPages (entrySlots (es.drop i))) := by
  rw [hc.set, slotPages_append, slotPages_cons]

/-- Writing a branch whose child was replaced. -/
theorem graft_done (hs : Sound b L) (hc : Fan.Cut f es i pre s) (t : Located)
    (hfit : (branch p f es).shape.size ≤ b.pageSize)
    (hh : Holds (view b L) (((p, .node (branch p f es).node) :: slotPages pre)
        ++ (t.pages ++ slotPages (entrySlots (es.drop i))))) :
    ∃ x b' L', graft p f.page (es.map (Prod.map id page)) i (.done t.page) b
        = .ok (.done x) b'
      ∧ Work b L (((p, .node (branch p f es).node) :: slotPages pre)
        ++ (t.pages ++ slotPages (entrySlots (es.drop i)))) b' L'
        (branch x (setChild f es i t).1 (setChild f es i t).2).pages := by
  have hsize : (Node.branch (setChild f.page (es.map (Prod.map id page)) i t.page).1
      (setChild f.page (es.map (Prod.map id page)) i t.page).2).encodedSize
      ≤ b.pageSize := by
    have hkeys := keys_setChild f.page (es.map (Prod.map id page)) i t.page
    have hcells : ∀ xs ys : List (Key × PageId), xs.map Prod.fst = ys.map Prod.fst →
        branchCells xs = branchCells ys := by
      intro xs ys h
      have : ∀ zs : List (Key × PageId), branchCells zs
        = ((zs.map Prod.fst).map branchCellSize).sum :=
        fun zs => by simp [branchCells, Function.comp_def]
      rw [this, this, h]
    rw [← encodedSize_node, node, Node.encodedSize] at hfit
    rw [Node.encodedSize, hcells _ _ hkeys]
    exact hfit
  have hhp : Holds (view b L) [(p, .node (branch p f es).node)] :=
    hh.sublist (singleton_sublist.mpr (by simp))
  obtain ⟨x, b', L', hrun, hw⟩ := writeNode_ok hs (some p) hhp ⟨_, rfl⟩ hsize
  refine ⟨x, b', L', bind_ok hrun, ?_⟩
  rw [pages_branch, node_setChild, slotPages_setChild hc]
  exact hw.frame hh

end Branch

/-- **INSERTION**: the pages end as the tree does. -/
theorem insertRec_post (key : Key) (v : ValueRef) (u : Bool) (t : Located) :
    ∀ {b : Batch} {L : FreePages} {fuel : Nat}, Sound b L →
      Holds (view b L) t.pages → t.shape.InOrder → t.shape.Fits b.pageSize →
      (t.path key).length ≤ fuel →
      InsertPost key b L t.pages (insertRec key v u fuel t.page b)
        (t.shape.insert b.pageSize key v u) := by
  induction t using descend key with
  | hleaf p es =>
      intro b L fuel hs hh ho hf hfuel
      rw [path_leaf] at hfuel
      rw [pages_leaf] at hh ⊢
      rw [shape_leaf] at ho ⊢
      obtain ⟨fuel, rfl⟩ : ∃ n, fuel = n + 1 := ⟨fuel - 1, by simp at hfuel; omega⟩
      exact insertRec_leaf hs hh (Tree.all_leaf.mp ho) key v u fuel
  | hbranch p f es ih =>
      intro b L fuel hs hh ho hf hfuel
      rw [path_branch, length_cons] at hfuel
      obtain ⟨fuel, rfl⟩ : ∃ n, fuel = n + 1 := ⟨fuel - 1, by omega⟩
      obtain ⟨pre, s, hc⟩ := exists_cut f es (rank_le_length key es)
      have hp : b.pageBytes p = .ok (.node (branch p f es).node) :=
        Holds.pageBytes hh (mem_pages _)
      rw [shape_branch] at ho hf
      obtain ⟨htop, hof, hoes⟩ := Tree.all_branch.mp ho
      obtain ⟨hsize, hff, hfes⟩ := Tree.all_branch.mp hf
      -- what the descent does to the child
      have hchild : InsertPost key b L (branchChild f es key).pages
          (insertRec key v u fuel (branchChild f es key).page b)
          ((branchChild f es key).shape.insert b.pageSize key v u) := by
        refine ih hs (holds_child hc hh) ?_ ?_ (by omega)
        · exact child_of_forall (P := fun t => t.shape.InOrder) hof
            (fun e he => hoes _ (mem_map_of_mem he)) _
        · exact child_of_forall (P := fun t => t.shape.Fits b.pageSize) hff
            (fun e he => hfes _ (mem_map_of_mem he)) _
      have hdesc : liftRead (descent p key b) b = .ok (some (branchChild f es key).page) b := by
        rw [descent_eq hs hp, node, childFor, page_branchChild]
        rfl
      rw [shape_branch, insert_branch, shape_branchChild, rank_map]
      show InsertPost key b L _ (insertRec key v u (fuel + 1) p b) _
      rw [insertRec, get_bind, bind_ok hdesc]
      simp only
      cases hr : (branchChild f es key).shape.insert b.pageSize key v u with
      | duplicate =>
          rw [hr] at hchild
          obtain ⟨b₁, L₁, hrun, hw⟩ := hchild
          refine ⟨b₁, L₁, ?_, ?_⟩
          · rw [bind_ok hrun]; rfl
          · rw [pages_cut hc]
            exact pages_cut hc ▸ work_child (p := p) hc hh hw
      | overrun =>
          rw [hr] at hchild
          obtain ⟨what, b₁, hrun⟩ := hchild
          exact ⟨what, b₁, bind_error hrun⟩
      | done c =>
          rw [hr] at hchild
          obtain ⟨t', b₁, L₁, hrun, rfl, hw, hland⟩ := hchild
          have hmem : ∀ x, ∀ c ∈ t'.pages, c ∈ (branch x
              (setChild f es (rank key es) t').1
              (setChild f es (rank key es) t').2).pages := by
            intro x c hc'
            rw [pages_branch, slotPages_setChild hc]
            exact .tail _ (mem_append_right _ (mem_append_left _ hc'))
          have hw₁ := work_child (p := p) hc hh hw
          rw [bind_ok hrun, if_neg (by simp)]
          by_cases hsame : t'.page = (branchChild f es key).page
          · -- the child kept its page, so the branch keeps its node
            rw [if_pos (by rw [hsame])]
            refine ⟨.branch p (setChild f es (rank key es) t').1
              (setChild f es (rank key es) t').2, b₁, L₁, rfl,
              shape_setChild .., ?_⟩
            have hnode : (branch p (setChild f es (rank key es) t').1
                (setChild f es (rank key es) t').2).node = (branch p f es).node := by
              rw [node_setChild, hsame, ← page_branchChild, branchChild,
                rank_map, setChild_self, node]
            rw [pages_branch p (setChild f es (rank key es) t').1,
              slotPages_setChild hc, hnode]
            refine ⟨hw₁, ?_⟩
            obtain ⟨x, es', hx, hrest⟩ := hland
            refine ⟨x, es', ?_, hrest⟩
            exact .tail _ (mem_append_right _ (mem_append_left _ hx))
          · rw [if_neg (by simpa using hsame)]
            obtain ⟨b₂, hload, hw₂⟩ := loadNode_ok hw₁.sound hw₁.holds
              (n := (branch p f es).node) (p := p) (by simp)
              (inOrder_node (by rw [shape_branch]; exact htop))
            have hw₁₂ := hw₁.trans hw₂
            obtain ⟨x, b₃, L₃, hgraft, hw₃⟩ := graft_done hw₁₂.sound hc t'
              (by rw [shape_branch, hw₁₂.stays.pageSize]; exact hsize) hw₁₂.holds
            refine ⟨_, b₃, L₃, ?_, shape_setChild x .., hw₁₂.trans hw₃,
              hland.later (hw₂.trans hw₃) (hmem x)⟩
            rw [bind_ok hload]
            show graft p f.page (es.map (Prod.map id page))
              (rank key (es.map (Prod.map id page))) (.done t'.page) b₂ = _
            rw [rank_map, hgraft]
            rfl
      | split l sep r =>
          rw [hr] at hchild
          obtain ⟨tl, tr, b₁, L₁, hrun, rfl, rfl, hw, hland⟩ := hchild
          have hw₁ := work_child (p := p) hc hh hw
          rw [bind_ok hrun, if_neg (by simp), if_neg (by simp)]
          obtain ⟨b₂, hload, hw₂⟩ := loadNode_ok hw₁.sound hw₁.holds
            (n := (branch p f es).node) (p := p) (by simp)
            (inOrder_node (by rw [shape_branch]; exact htop))
          have hw₁₂ := hw₁.trans hw₂
          have hpages : slotPages (slots (setChild f es (rank key es) tl).1
              ((setChild f es (rank key es) tl).2.insertIdx (rank key es) (sep, tr)))
              = slotPages pre ++ ((tl.pages ++ tr.pages)
                ++ slotPages (entrySlots (es.drop (rank key es)))) := by
            rw [hc.insert]
            simp
          have hfin := finishBranch_post (p := p) (q := .node (branch p f es).node)
            hw₁₂.sound (setChild f es (rank key es) tl).1
            ((setChild f es (rank key es) tl).2.insertIdx (rank key es) (sep, tr))
            (by rw [hpages]; exact hw₁₂.holds)
            (hland.later hw₂ fun c hc' => by
              rw [hpages]
              exact mem_append_right _ (mem_append_left _ hc'))
          rw [hpages, hw₁₂.stays.pageSize, map_insertIdx, map_insertIdx] at hfin
          have hres := hfin.after hw₁₂ fun hd => absurd hd (closeBranch_ne_duplicate _ _ _)
          rw [bind_ok hload]
          show InsertPost key b L _ (graft p f.page (es.map (Prod.map id page))
            (rank key (es.map (Prod.map id page))) (.split tl.page sep tr.page) b₂)
            (graftChild b.pageSize f.shape (es.map (Prod.map id shape)) (rank key es)
              (.split tl.shape sep tr.shape))
          rw [rank_map, graft, graftChild, setChild_map, setChild_map]
          exact hres

end QuantyInsertSim
