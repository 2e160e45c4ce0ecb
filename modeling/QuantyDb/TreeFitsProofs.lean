import QuantyDb.TreeMapProofs

/-! # Sizes of trees

    What an insertion or a deletion does to the sizes of the nodes.  A node
    that an insertion makes is only ever put in the tree after its size was
    compared with the page, and a deletion makes no node larger except by a
    merge, which checks too: so a tree whose nodes fit keeps nodes that fit. -/

namespace QuantyTreeFits

open QuantyKey QuantyPage QuantyPager QuantyBtree QuantyTree QuantyTreeMap List Fan Tree

/-! ## Cells of a branch -/

section Cells

variable {α : Type}

theorem branchCells_keys (es : List (Key × α)) :
    branchCells es = ((es.map Prod.fst).map branchCellSize).sum := by
  simp [branchCells, Function.comp_def]

/-- Replacing a child takes no room. -/
@[simp] theorem branchCells_setChild (f : α) (es : List (Key × α)) (i : Nat) (x : α) :
    branchCells (Fan.setChild f es i x).2 = branchCells es := by
  rw [branchCells_keys, keys_setChild, ← branchCells_keys]

theorem branchCells_sublist {es es' : List (Key × α)} (h : es'.Sublist es) :
    branchCells es' ≤ branchCells es := by
  induction h with
  | slnil => exact le_rfl
  | cons e _ ih => exact ih.trans (by simp)
  | cons_cons e _ ih => simpa using ih

theorem leafCells_sublist {es es' : List (Key × ValueRef)} (h : es'.Sublist es) :
    leafCells es' ≤ leafCells es := by
  induction h with
  | slnil => exact le_rfl
  | cons e _ ih => exact ih.trans (by simp)
  | cons_cons e _ ih => simpa using ih

end Cells

variable {ps : Nat} {f : Tree} {es : List (Key × Tree)} {f' t : Tree} {es' : List (Key × Tree)}
  {idx : Nat}

/-- Offering a merge does not make the branch larger. -/
theorem mergeChild_cells (h : mergeChild ps f es idx = some (f', es')) :
    branchCells es' ≤ branchCells es := by
  unfold mergeChild joinPair at h
  split at h
  · cases h
    exact le_rfl
  · split at h
    · cases h
      exact le_rfl
    · split at h
      · nomatch h
      · split at h
        · cases h
          exact le_rfl
        · cases h
          exact (branchCells_sublist (eraseIdx_sublist _ _)).trans
            (branchCells_setChild ..).le

theorem fits_leaf {es : List (Key × ValueRef)} :
    (leaf es).Fits ps ↔ (leaf es).size ≤ ps := all_leaf

theorem fits_branch : (branch f es).Fits ps
      ↔ (branch f es).size ≤ ps ∧ f.Fits ps ∧ ∀ e ∈ es, e.2.Fits ps := all_branch

/-! ## Insertion -/

section Insert

variable {ps : Nat}

/-- Every node of what an insertion leaves fits. -/
def InsertedFits (ps : Nat) : Inserted → Prop
  | .done t => t.Fits ps
  | .split l _ r => l.Fits ps ∧ r.Fits ps
  | .duplicate => True
  | .overrun => True

theorem closeLeaf_fits (es : List (Key × ValueRef)) : InsertedFits ps (closeLeaf ps es) := by
  unfold closeLeaf
  split
  · next hfit => exact fits_leaf.mpr hfit
  · split
    · trivial
    · split
      · trivial
      · unfold halves
        split
        · next hfit => exact ⟨fits_leaf.mpr hfit.1, fits_leaf.mpr hfit.2⟩
        · trivial

theorem closeBranch_fits (hf : f.Fits ps) (hes : ∀ e ∈ es, e.2.Fits ps) :
    InsertedFits ps (closeBranch ps f es) := by
  unfold closeBranch
  split
  · next hfit => exact fits_branch.mpr ⟨hfit, hf, hes⟩
  · split
    · trivial
    · split
      · trivial
      · next sep rf rest hdrop =>
        have hright : ∀ e ∈ (sep, rf) :: rest, e.2.Fits ps := fun e he =>
          hes e (mem_of_mem_drop (hdrop ▸ he))
        unfold halves
        split
        · next hfit =>
          refine ⟨fits_branch.mpr ⟨hfit.1, hf, fun e he => hes e (mem_of_mem_take he)⟩,
            fits_branch.mpr ⟨hfit.2, hright (sep, rf) (mem_cons_self ..), fun e he =>
              hright e (.tail _ he)⟩⟩
        · trivial

/-- **INSERTION KEEPS NODES THAT FIT**. -/
theorem insert_fits (key : Key) (v : ValueRef) (u : Bool) (h : t.Fits ps) :
    InsertedFits ps (t.insert ps key v u) := by
  induction t using descend key with
  | hleaf es =>
      rw [Tree.insert]
      split
      · trivial
      · exact closeLeaf_fits _
  | hbranch f es ih =>
      obtain ⟨htop, hf, hes⟩ := fits_branch.mp h
      have hchild := ih (child_of_forall hf hes _)
      rw [insert_branch]
      cases hr : (branchChild f es key).insert ps key v u with
      | duplicate => trivial
      | overrun => trivial
      | done c =>
          rw [hr] at hchild
          obtain ⟨hf', hes'⟩ := setChild_forall hf hes hchild (Fan.rank key es)
          refine fits_branch.mpr ⟨?_, hf', hes'⟩
          rw [size, branchCells_setChild]
          exact htop
      | split l sep r =>
          rw [hr] at hchild
          obtain ⟨hf', hes'⟩ := setChild_forall hf hes hchild.1 (Fan.rank key es)
          refine closeBranch_fits hf' fun e he => ?_
          rcases eq_or_mem_of_mem_insertIdx he with rfl | hmem
          · exact hchild.2
          · exact hes' e hmem

end Insert

/-! ## Deletion -/

section Delete

variable {ps : Nat}

theorem mergeTrees_fits {sep : Key} {l r m : Tree} (hl : l.Fits ps) (hr : r.Fits ps)
    (h : mergeTrees sep l r = some m) (hm : m.size ≤ ps) : m.Fits ps := by
  unfold mergeTrees at h
  split at h
  · cases h
    exact fits_leaf.mpr hm
  · cases h
    obtain ⟨-, hlf, hles⟩ := fits_branch.mp hl
    obtain ⟨-, hrf, hres⟩ := fits_branch.mp hr
    refine fits_branch.mpr ⟨hm, hlf, fun e he => ?_⟩
    rcases mem_append.mp he with he | he
    · exact hles e he
    · rcases mem_cons.mp he with rfl | he
      · exact hrf
      · exact hres e he
  · nomatch h

theorem mergeChild_fits (hf : f.Fits ps) (hes : ∀ e ∈ es, e.2.Fits ps)
    (h : mergeChild ps f es idx = some (f', es')) : f'.Fits ps ∧ ∀ e ∈ es', e.2.Fits ps := by
  unfold mergeChild joinPair at h
  split at h
  · cases h
    exact ⟨hf, hes⟩
  · split at h
    · cases h
      exact ⟨hf, hes⟩
    · next sep right hget =>
      split at h
      · nomatch h
      · next merged hmerge =>
        split at h
        · cases h
          exact ⟨hf, hes⟩
        · next hroom =>
          cases h
          have hm := mergeTrees_fits (child_of_forall hf hes _)
            (hes _ (mem_of_getElem? hget)) hmerge (by omega)
          obtain ⟨hf', hes'⟩ := setChild_forall hf hes hm (mergeAt es.length idx)
          exact ⟨hf', fun e he => hes' e (mem_of_mem_eraseIdx he)⟩

theorem collapse_fits (hf : f.Fits ps) (hes : ∀ e ∈ es, e.2.Fits ps)
    (hsize : (branch f es).size ≤ ps) : (collapse f es).Fits ps := by
  unfold collapse
  split
  · exact hf
  · exact fits_branch.mpr ⟨hsize, hf, hes⟩

/-- **DELETION KEEPS NODES THAT FIT**. -/
theorem delete_fits {key : Key} {t' : Tree} (h : t.Fits ps) (hd : t.delete ps key = .updated t') :
    t'.Fits ps := by
  induction t using descend key generalizing t' with
  | hleaf es =>
      rw [delete] at hd
      split at hd
      · split at hd
        · cases hd
        · cases hd
          exact fits_leaf.mpr ((Nat.add_le_add_left
            (leafCells_sublist (filter_sublist)) _).trans (fits_leaf.mp h))
      · cases hd
  | hbranch f es ih =>
      obtain ⟨htop, hf, hes⟩ := fits_branch.mp h
      -- a branch whose separators are among the old ones is no larger
      have hsize : ∀ {g : Tree} {es' : List (Key × Tree)}, branchCells es' ≤ branchCells es →
          (branch g es').size ≤ ps := fun hle =>
        (Nat.add_le_add_left (Nat.add_le_add_left hle _) _).trans htop
      rw [delete_branch] at hd
      cases hr : (branchChild f es key).delete ps key with
      | notFound => rw [hr] at hd; cases hd
      | mixed => rw [hr] at hd; cases hd
      | updated c =>
          rw [hr] at hd
          obtain ⟨hf', hes'⟩ := setChild_forall hf hes (ih (child_of_forall hf hes _) hr)
            (Fan.rank key es)
          simp only [pruneChild] at hd
          split at hd
          · cases hd
          · next f'' es'' hmerge =>
            cases hd
            obtain ⟨hf'', hes''⟩ := mergeChild_fits hf' hes' hmerge
            refine collapse_fits hf'' hes'' (hsize ?_)
            exact (mergeChild_cells hmerge).trans (branchCells_setChild ..).le
      | emptied =>
          rw [hr] at hd
          simp only [pruneChild] at hd
          split at hd
          · cases hd
          · cases hd
            refine collapse_fits (hes _ (mem_cons_self ..))
              (fun e he => hes e (.tail _ he)) (hsize ?_)
            exact branchCells_sublist (sublist_cons_self _ _)
          · cases hd
            exact collapse_fits hf (fun e he => hes e (mem_of_mem_eraseIdx he))
              (hsize (branchCells_sublist (eraseIdx_sublist _ _)))

end Delete

end QuantyTreeFits
