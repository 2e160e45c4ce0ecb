import QuantyDb.CallRules
import QuantyDb.SavepointProofs
import QuantyDb.BtreeSimProofs
import QuantyDb.DbModel

/-! # A rollback is exact

    Between a savepoint and its rollback a caller may allocate, write pages it
    owns by any of the three ways there are, change either tree, set roots and
    replace the free list, and any of those may fail half way.  The batch it
    is left with is the one it had: the same pages under the same ids, and the
    same books, whatever state the batch was in.

    `Undoable` is what one call keeps.  It asks nothing of the batch, so it
    holds along every run (`runOps_undoable`), and rolling back reads the
    first state off it. -/

namespace QuantyRollback

open QuantyKey QuantyPage QuantyPager QuantyPagerInv QuantySavepoint QuantyBtree QuantyBtreeSim
open AssocList
open Batch
open QuantyCalls QuantyDatabase

/-! ## One call -/

/-- The way back is kept, the mark stands and the pages stay a map. -/
structure Undoable (b b' : Batch) : Prop extends Tracks b b' where
  marked : b.savepoint.isSome = true → b'.savepoint.isSome = true
  sorted : AssocList.Sorted b.dirty → AssocList.Sorted b'.dirty

theorem Undoable.refl (b : Batch) : Undoable b b := ⟨Tracks.refl b, id, id⟩

theorem Undoable.trans {b b' b'' : Batch} (h : Undoable b b') (h' : Undoable b' b'') :
    Undoable b b'' :=
  ⟨Tracks.trans h.toTracks h'.toTracks, fun hm => h'.marked (h.marked hm),
    fun hs => h'.sorted (h.sorted hs)⟩

/-- A call that touches neither pages nor savepoint. -/
theorem undoable_quiet {b b' : Batch} (hp : b'.pager = b.pager) (hb : b'.base = b.base)
    (hd : b'.dirty = b.dirty) (hs : b'.savepoint = b.savepoint) : Undoable b b' :=
  ⟨tracks_quiet hp hb hd hs, fun hm => hs ▸ hm, fun hsorted => hd ▸ hsorted⟩

/-- Recording a page does not lose the mark. -/
theorem record_marked (b : Batch) (id : PageId) (h : b.savepoint.isSome = true) :
    (b.record id).savepoint.isSome = true := by
  rw [record]
  split
  · exact h
  · split
    · exact h
    · rfl

theorem undoable_record (b : Batch) (id : PageId) (ns : List (PageId × (Node × Nat))) :
    Undoable b { b.record id with nodes := ns } := by
  refine ⟨record_tracks b id ns, record_marked b id, ?_⟩
  obtain ⟨sp, hrec⟩ := record_eq id b
  rw [hrec]
  exact fun hs => hs

theorem undoable_rewrite (b : Batch) (id : PageId) (new : Page)
    (ns : List (PageId × (Node × Nat))) :
    Undoable b { b with
      dirty := put id new b.dirty, savepoint := (b.record id).savepoint, nodes := ns } :=
  ⟨rewrite_tracks b id new ns, record_marked b id, fun hs => sorted_put hs id new⟩

/-- Taking a page id changes the books and nothing else. -/
theorem takePageId_frame (b : Batch) :
    ∃ l : Ledger, b.takePageId.2 = { b with toLedger := l } := by
  have hrefill : ∃ l : Ledger, b.refillPool = { b with toLedger := l } := by
    rw [refillPool]
    split
    · split
      · exact ⟨_, rfl⟩
      · split <;> exact ⟨_, rfl⟩
    · exact ⟨b.toLedger, rfl⟩
  rw [takePageId]
  split
  · obtain ⟨l, hl⟩ := hrefill
    dsimp only
    rw [hl]
    split <;> exact ⟨_, rfl⟩
  · exact ⟨_, rfl⟩

theorem undoable_allocate (ty : PageType) (b : Batch) : Undoable b (b.allocate ty).2 := by
  obtain ⟨l, hl⟩ := takePageId_frame b
  obtain ⟨sp, hb', hsp⟩ := allocate_eq b ty
  have hrecord : sp = (b.record b.takePageId.1).savepoint := by
    rw [hsp]
    exact record_savepoint_congr _ (by rw [hl]) (by rw [hl])
  rw [hb', hl, hrecord]
  -- the books apart, this is a write of the page that was taken
  exact (undoable_rewrite b b.takePageId.1 (Page.blank ty) b.nodes).trans
    (undoable_quiet rfl rfl rfl rfl)

theorem undoable_pageMut (id : PageId) (f : Page → Page) (b : Batch) :
    Undoable b (after (pageMut id f b)) := by
  rcases pageMut_cases b id f with ⟨-, heq⟩ | ⟨q, -, heq⟩
  · rw [heq]
    exact undoable_record b id _
  · rw [heq]
    exact undoable_rewrite b id (f q) _

theorem undoable_keptAndPageMut (b : Batch) (id : PageId)
    (f : Node × Nat → Page → (Node × Nat) × Page) : Undoable b (b.keptAndPageMut id f) := by
  rw [keptAndPageMut]
  split
  · next kept page _ _ =>
    obtain ⟨sp, hrec⟩ := record_eq id b
    have h := undoable_rewrite b id (f kept page).2 (put id (f kept page).1 b.nodes)
    rw [hrec] at h ⊢
    exact h
  · exact Undoable.refl b

theorem undoable_encodeInto (id : PageId) (n : Node) (b : Batch) :
    Undoable b (after (encodeInto id n b)) := by
  have hmut := undoable_pageMut id (fun _ => Page.node n) b
  unfold encodeInto
  cases hrun : pageMut id (fun _ => Page.node n) b with
  | error e b' =>
      rw [hrun] at hmut
      rw [bind_error hrun]
      exact hmut
  | ok u b' =>
      rw [hrun] at hmut
      rw [bind_ok hrun, get_bind]
      split
      · exact hmut
      · exact hmut.trans (undoable_quiet rfl rfl rfl rfl)

theorem undoable_insertInPlace (page : PageId) (key : Key) (v : ValueRef) (unique : Bool)
    (b : Batch) : Undoable b (after (insertInPlace page key v unique b)) := by
  obtain ⟨sp, hrec⟩ := record_eq page b
  have hrecord : Undoable b (b.record page) := by
    have h := undoable_record b page b.nodes
    rw [hrec] at h ⊢
    exact h
  unfold insertInPlace
  split
  · next es used q _ _ =>
    dsimp only
    split
    · split <;> exact hrecord
    · next i _ =>
      split
      · have h := undoable_rewrite b page (insertCell i key v q)
          (put page (.leaf (es.insertIdx i (key, v)), used + leafCellSize key v) b.nodes)
        rw [hrec] at h ⊢
        exact h
      · exact hrecord
  · exact hrecord
  · exact Undoable.refl b

theorem undoable_loadNode (page : PageId) (b : Batch) : Undoable b (after (loadNode page b)) := by
  unfold loadNode
  split
  · exact undoable_quiet rfl rfl rfl rfl
  · split
    · exact Undoable.refl b
    · split <;> exact Undoable.refl b

theorem undoable_decodePage (page : PageId) (b : Batch) :
    Undoable b (after (decodePage page b)) := by
  unfold decodePage liftRead
  split
  · exact Undoable.refl b
  · split <;> exact Undoable.refl b

theorem respects_iff {α : Type} {R : Batch → Batch → Prop} {m : BatchM α} :
    Respects R m ↔ ∀ b, R b (after (m b)) := by
  have hafter : ∀ b, afterward (m b) = after (m b) := by
    intro b
    cases m b <;> rfl
  simp only [Respects, hafter]

theorem lasting_undoable : Lasting Undoable QuantyTreeCalls.decoded where
  refl := Undoable.refl
  trans _ _ _ h h' := h.trans h'
  loadNode page := respects_iff.mpr (undoable_loadNode page)
  decodePage page := respects_iff.mpr (undoable_decodePage page)
  allocate ty := respects_iff.mpr (undoable_allocate ty)
  encodeInto id n := respects_iff.mpr (undoable_encodeInto id n)
  writePart id _ _ := respects_iff.mpr (undoable_pageMut id _)
  insertInPlace page key v unique := respects_iff.mpr (undoable_insertInPlace page key v unique)

/-- The calls on a tree can be undone. -/
theorem undoable_put (root : PageId) (key : Key) (value : Bytes) :
    Respects Undoable (put root key value) :=
  QuantyTreeCalls.put_decoded root key value ▸ respects_put lasting_undoable root key value

theorem undoable_putUnique (root : PageId) (key : Key) (value : Bytes) :
    Respects Undoable (putUnique root key value) :=
  QuantyTreeCalls.putUnique_decoded root key value ▸
    respects_putUnique lasting_undoable root key value

theorem undoable_remove (root : PageId) (key : Key) :
    Respects Undoable (remove root key) :=
  QuantyTreeCalls.remove_decoded root key ▸ respects_remove lasting_undoable root key

/-! ## Runs -/

/-- What a caller may do between a savepoint and its rollback. -/
inductive Op
  | allocate (ty : PageType)
  | pageMut (id : PageId) (f : Page → Page)
  | keptAndPageMut (id : PageId) (f : Node × Nat → Page → (Node × Nat) × Page)
  | takeNodeSized (id : PageId)
  | keepNodeSized (id : PageId) (n : Node) (size : Nat)
  | put (root : PageId) (key : Key) (value : Bytes)
  | putUnique (root : PageId) (key : Key) (value : Bytes)
  | remove (root : PageId) (key : Key)
  | setDataRoot (root : PageId)
  | setCatalogRoot (root : PageId)
  | setFreelistRoot (root : PageId)
  | setCommitPage (page : PageId)
  | setRefsRoot (root : PageId)
  | setFreelist (ids : List PageId)

def Op.run : Op → Batch → Batch
  | .allocate ty, b => (b.allocate ty).2
  | .pageMut id f, b => after (Batch.pageMut id f b)
  | .keptAndPageMut id f, b => b.keptAndPageMut id f
  | .takeNodeSized id, b => (b.takeNodeSized id).2
  | .keepNodeSized id n size, b => b.keepNodeSized id n size
  | .put root key value, b => after (QuantyBtree.put root key value b)
  | .putUnique root key value, b => after (QuantyBtree.putUnique root key value b)
  | .remove root key, b => after (QuantyBtree.remove root key b)
  | .setDataRoot root, b => b.setDataRoot root
  | .setCatalogRoot root, b => b.setCatalogRoot root
  | .setFreelistRoot root, b => { b with freelistRoot := root }
  | .setCommitPage page, b => b.setCommitPage page
  | .setRefsRoot root, b => b.setRefsRoot root
  | .setFreelist ids, b => b.setFreelist ids

def runOps (ops : List Op) (b : Batch) : Batch := ops.foldl (fun b op => op.run b) b

/-- **ONE CALL** can be undone, in whatever state the batch is. -/
theorem Op.undoable (op : Op) (b : Batch) : Undoable b (op.run b) := by
  cases op with
  | allocate ty => exact undoable_allocate ty b
  | pageMut id f => exact undoable_pageMut id f b
  | keptAndPageMut id f => exact undoable_keptAndPageMut b id f
  | put root key value => exact respects_iff.mp (undoable_put root key value) b
  | putUnique root key value => exact respects_iff.mp (undoable_putUnique root key value) b
  | remove root key => exact respects_iff.mp (undoable_remove root key) b
  | takeNodeSized id => exact undoable_quiet rfl rfl rfl rfl
  | keepNodeSized id n size => exact undoable_quiet rfl rfl rfl rfl
  | setDataRoot root => exact undoable_quiet rfl rfl rfl rfl
  | setCatalogRoot root => exact undoable_quiet rfl rfl rfl rfl
  | setFreelistRoot root => exact undoable_quiet rfl rfl rfl rfl
  | setCommitPage page => exact undoable_quiet rfl rfl rfl rfl
  | setRefsRoot root => exact undoable_quiet rfl rfl rfl rfl
  | setFreelist ids => exact undoable_quiet rfl rfl rfl rfl

theorem runOps_undoable (ops : List Op) (b : Batch) : Undoable b (runOps ops b) := by
  induction ops generalizing b with
  | nil => exact Undoable.refl b
  | cons op rest ih => exact (op.undoable b).trans (ih (op.run b))

/-! ## Back -/

/-- What is as it was: everything but the decoded copies. -/
structure Restored (s b : Batch) : Prop where
  dirty : b.dirty = s.dirty
  ledger : b.toLedger = s.toLedger
  pager : b.pager = s.pager
  base : b.base = s.base
  closed : b.savepoint = none

/-- **BACK TO THE MARK** from any state that a run leads to. -/
theorem Undoable.restored {s b : Batch} (hs : AssocList.Sorted s.dirty) (h : Undoable s.mark b) :
    Restored s b.rollbackSavepoint := by
  obtain ⟨m', hm'⟩ := Option.isSome_iff_exists.mp (h.marked rfl)
  obtain ⟨m, hm, hledger, hsorted, hbefore⟩ := h.back m' hm'
  obtain rfl : (⟨s.toLedger, []⟩ : Savepoint) = m := Option.some.inj hm
  obtain ⟨hl, hp, hb, hclosed, hd⟩ := rollback_rest hm'
  refine ⟨?_, hl.trans hledger, hp.trans h.pager, hb.trans h.base, hclosed⟩
  refine eq_of_get (hd (h.sorted hs)) hs ?_
  intro id
  rw [get_rollback hm' (hsorted List.Pairwise.nil), hbefore id]
  rfl

/-- A restored batch reads as the one it was restored to. -/
theorem Restored.batchReader {s b : Batch} (h : Restored s b) : batchReader b = batchReader s := by
  have hread : b.pageBytes = s.pageBytes := by
    funext id
    rw [pageBytes, pageBytes, h.dirty, h.base, h.pager]
  have hsize : b.pageSize = s.pageSize := congrArg Pager.pageSize h.pager
  have hnext : b.nextPage = s.nextPage := congrArg Ledger.nextPage h.ledger
  rw [QuantyBtree.batchReader, QuantyBtree.batchReader, hread, hsize, hnext]

/-! ## Transactions -/

/-- What a caller may do to a transaction. -/
inductive TxOp
  | put (key : Key) (value : Bytes)
  | putUnique (key : Key) (value : Bytes)
  | delete (key : Key)
  | catalogPut (key : Key) (value : Bytes)
  | catalogDelete (key : Key)
  | onBatch (op : Op)

/-- The transaction after a call, whether the call failed or not. -/
def afterTx {α : Type} : EStateM.Result Error WriteTx α → WriteTx
  | .ok _ tx => tx
  | .error _ tx => tx

def TxOp.run : TxOp → WriteTx → WriteTx
  | .put key value, tx => afterTx (WriteTx.put key value tx)
  | .putUnique key value, tx => afterTx (WriteTx.putUnique key value tx)
  | .delete key, tx => afterTx (WriteTx.delete key tx)
  | .catalogPut key value, tx => afterTx (WriteTx.catalogPut key value tx)
  | .catalogDelete key, tx => afterTx (WriteTx.catalogDelete key tx)
  | .onBatch op, tx => { tx with batch := op.run tx.batch }

def runTx (ops : List TxOp) (tx : WriteTx) : WriteTx := ops.foldl (fun tx op => op.run tx) tx

section Calls

variable {α : Type} {m : PageId → BatchM (PageId × α)}

/-- A call on a tree leaves the batch that the tree call leaves. -/
theorem undoable_onData (hm : ∀ root, Respects Undoable (m root)) (tx : WriteTx) :
    Undoable tx.batch (afterTx (WriteTx.onData m tx)).batch := by
  have h := respects_iff.mp (hm tx.root) tx.batch
  unfold WriteTx.onData
  cases hrun : m tx.root tx.batch <;> rw [hrun] at h <;> exact h

theorem undoable_onCatalog (hm : ∀ root, Respects Undoable (m root)) (tx : WriteTx) :
    Undoable tx.batch (afterTx (WriteTx.onCatalog m tx)).batch := by
  have h := respects_iff.mp (hm tx.catalogRoot) tx.batch
  unfold WriteTx.onCatalog
  cases hrun : m tx.catalogRoot tx.batch <;> rw [hrun] at h <;> exact h

end Calls

theorem respects_putAt (key : Key) (value : Bytes) (root : PageId) :
    Respects Undoable (WriteTx.putAt key value root) :=
  (undoable_put root key value).bind lasting_undoable fun _ => respects_pure lasting_undoable _

theorem TxOp.undoable (op : TxOp) (tx : WriteTx) : Undoable tx.batch (op.run tx).batch := by
  cases op with
  | put key value => exact undoable_onData (respects_putAt key value) tx
  | putUnique key value =>
      exact undoable_onData (fun root => undoable_putUnique root key value) tx
  | delete key => exact undoable_onData (fun root => undoable_remove root key) tx
  | catalogPut key value => exact undoable_onCatalog (respects_putAt key value) tx
  | catalogDelete key =>
      exact undoable_onCatalog (fun root => undoable_remove root key) tx
  | onBatch op => exact op.undoable tx.batch

theorem runTx_undoable (ops : List TxOp) (tx : WriteTx) :
    Undoable tx.batch (runTx ops tx).batch := by
  induction ops generalizing tx with
  | nil => exact Undoable.refl tx.batch
  | cons op rest ih => exact (op.undoable tx).trans (ih (op.run tx))

/-- A transaction put back with the roots it had answers every read of either
    tree as before. -/
theorem rollback_reads {tx : WriteTx} (ops : List TxOp) (hs : AssocList.Sorted tx.batch.dirty) :
    let tx' := (runTx ops tx.savepoint).rollbackSavepoint tx.roots
    Restored tx.batch tx'.batch
      ∧ (∀ key, tx'.get key = tx.get key ∧ tx'.catalogGet key = tx.catalogGet key)
      ∧ ∀ start stop, tx'.scan start stop = tx.scan start stop
        ∧ tx'.catalogScan start stop = tx.catalogScan start stop := by
  have hback : Restored tx.batch (runTx ops tx.savepoint).batch.rollbackSavepoint :=
    (runTx_undoable ops tx.savepoint).restored hs
  refine ⟨hback, ?_, ?_⟩
  · intro key
    simp only [WriteTx.get, WriteTx.catalogGet, WriteTx.rollbackSavepoint, WriteTx.roots,
      hback.batchReader, and_self]
  · intro start stop
    simp only [WriteTx.scan, WriteTx.catalogScan, WriteTx.rollbackSavepoint, WriteTx.roots,
      hback.batchReader, and_self]

/-- **ROLLBACK IS EXACT**.  From any state of a batch, after any calls, the
    batch has the pages, roots and books it had; a transaction put back with
    the roots it had answers every read of either tree as before.  (The pages
    of a batch are a map: `Sorted`.) -/
theorem rollback_is_exact :
    (∀ (s : Batch) (ops : List Op), AssocList.Sorted s.dirty →
      Restored s (runOps ops s.mark).rollbackSavepoint) ∧
    (∀ (tx : WriteTx) (ops : List TxOp), AssocList.Sorted tx.batch.dirty →
      let tx' := (runTx ops tx.savepoint).rollbackSavepoint tx.roots
      Restored tx.batch tx'.batch
        ∧ (∀ key, tx'.get key = tx.get key ∧ tx'.catalogGet key = tx.catalogGet key)
        ∧ ∀ start stop, tx'.scan start stop = tx.scan start stop
          ∧ tx'.catalogScan start stop = tx.catalogScan start stop) := by
  constructor
  · intro s ops hs
    exact (runOps_undoable ops s.mark).restored hs
  · intro tx ops hs
    exact rollback_reads ops hs

/-- A page allocated before the mark is written over, another allocated and
    the roots moved; then all of it is taken back. -/
theorem rollback_is_exact_initial :
    let s := ((Pager.initial 512 0).begin.allocate .leaf).2
    Restored s (runOps [.put 2 [1] [7], .allocate .overflow, .setDataRoot 3, .setFreelist [2]]
      s.mark).rollbackSavepoint :=
  rollback_is_exact.1 _ _ (List.pairwise_singleton _ _)

end QuantyRollback
