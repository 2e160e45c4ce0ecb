import QuantyDb.ByteProofs

/-! # Kept nodes are what their pages say

    Beside its pages a write batch keeps some of the nodes it encoded, to save
    decoding them again.  A later insert works from the kept node and writes
    into the page, so the two must never part.

    `Kept` is the invariant: a kept node stands beside a page of the batch's
    own, and encoding it there again changes nothing.  Each call on pages keeps
    it, by taking the node out, by putting it in right after it was encoded, or
    by changing node and bytes alike; so calls on trees keep it, and so do
    savepoints and whatever is written through `page_mut`. -/

namespace QuantyBytes

open QuantyKey QuantyPage QuantyPager QuantyBtree QuantyCodec QuantyNode LittleEndian ByteBuffer
open AssocList
open QuantyCalls ByteBatch

/-! ## The invariant -/

/-- The pages of a batch have the page's size, those a savepoint put aside
    included, and every kept node is the one its page encodes. -/
structure Kept (b : ByteBatch) : Prop where
  roomy : PAGE_HEADER_LEN ≤ b.pageSize
  small : b.pageSize ≤ 2 ^ 16
  owned : ∀ id buf, AssocList.get id b.dirty = some buf → buf.length = b.pageSize
  saved : ∀ m, b.savepoint = some m → ∀ id buf, (id, some buf) ∈ m.undo → buf.length = b.pageSize
  kept : ∀ id n size, AssocList.get id b.nodes = some (n, size) →
    ∃ buf, AssocList.get id b.dirty = some buf ∧ encodeNode n buf = .ok (buf, size)

variable {b : ByteBatch} {id : PageId}

theorem kept_start {p : BytePager} (m : Meta) (hroomy : PAGE_HEADER_LEN ≤ p.pageSize)
    (hsmall : p.pageSize ≤ 2 ^ 16) : Kept (start p m) where
  roomy := hroomy
  small := hsmall
  owned _ _ h := nomatch h
  saved _ h := nomatch h
  kept _ _ _ h := nomatch h

/-- What a kept node says of its page. -/
theorem Kept.page (h : Kept b) {n : Node} {size : Nat}
    (hn : AssocList.get id b.nodes = some (n, size)) :
    ∃ buf, AssocList.get id b.dirty = some buf ∧ buf.length = b.pageSize
      ∧ size = n.encodedSize ∧ n.encodedSize ≤ buf.length ∧ frame n buf = buf := by
  obtain ⟨buf, hbuf, henc⟩ := h.kept id n size hn
  have hlen := h.owned id buf hbuf
  obtain ⟨hfits, hpage⟩ :=
    (encodeNode_eq_ok (hlen ▸ h.roomy) (hlen ▸ h.small)).mp henc
  obtain ⟨hframe, hsize⟩ := Prod.mk.inj hpage
  exact ⟨buf, hbuf, hlen, hsize, hfits, hframe.symm⟩

/-- **ONE PAGE CHANGES**: the rest stands, and what is kept of the page is
    what it says now. -/
theorem Kept.change (h : Kept b) (id : PageId) {dirty : List (PageId × Bytes)}
    {nodes : List (PageId × (Node × Nat))}
    (hdirty : ∀ id', id' ≠ id → AssocList.get id' dirty = AssocList.get id' b.dirty)
    (hnodes : ∀ id' e, id' ≠ id → AssocList.get id' nodes = some e →
      AssocList.get id' b.nodes = some e)
    (hsize : ∀ buf, AssocList.get id dirty = some buf → buf.length = b.pageSize)
    (hkept : ∀ n size, AssocList.get id nodes = some (n, size) →
      ∃ buf, AssocList.get id dirty = some buf ∧ encodeNode n buf = .ok (buf, size)) :
    Kept { b with dirty := dirty, nodes := nodes } where
  roomy := h.roomy
  small := h.small
  owned id' buf hbuf := by
    by_cases hid : id' = id
    · exact hsize buf (hid ▸ hbuf)
    · exact h.owned id' buf (hdirty id' hid ▸ hbuf)
  saved := h.saved
  kept id' n size hn := by
    by_cases hid : id' = id
    · subst hid
      exact hkept n size hn
    · obtain ⟨buf, hbuf, henc⟩ := h.kept id' n size (hnodes id' _ hid hn)
      exact ⟨buf, (hdirty id' hid).trans hbuf, henc⟩

/-- The node of a page is let go and the page written, or given up. -/
theorem Kept.drop (h : Kept b) (id : PageId) {dirty : List (PageId × Bytes)}
    (hdirty : ∀ id', id' ≠ id → AssocList.get id' dirty = AssocList.get id' b.dirty)
    (hsize : ∀ buf, AssocList.get id dirty = some buf → buf.length = b.pageSize) :
    Kept { b with dirty := dirty, nodes := del id b.nodes } := by
  refine h.change id hdirty ?_ hsize ?_
  · intro id' e hid he
    rwa [get_del, if_neg hid] at he
  · intro n size hn
    rw [get_del, if_pos rfl] at hn
    nomatch hn

theorem Kept.write (h : Kept b) (id : PageId) {buf : Bytes} (hlen : buf.length = b.pageSize) :
    Kept { b with dirty := put id buf b.dirty, nodes := del id b.nodes } := by
  refine h.drop id ?_ ?_
  · intro id' hid
    rw [get_put, if_neg hid]
  · intro buf' hbuf'
    rw [get_put, if_pos rfl] at hbuf'
    exact Option.some.inj hbuf' ▸ hlen

theorem Kept.take (h : Kept b) (id : PageId) :
    Kept { b with nodes := del id b.nodes } :=
  h.drop id (fun _ _ => rfl) (h.owned id)

/-- A node is kept right after it was encoded. -/
theorem Kept.keep (h : Kept b) {n : Node} {size : Nat} {buf : Bytes}
    (hbuf : AssocList.get id b.dirty = some buf) (henc : encodeNode n buf = .ok (buf, size)) :
    Kept (b.keepNodeSized id n size) := by
  refine h.change id (fun _ _ => rfl) ?_ (h.owned id) ?_
  · intro id' e hid he
    rw [get_put, if_neg hid] at he
    split at he
    · nomatch he
    · exact he
  · intro n' size' hn'
    rw [get_put, if_pos rfl] at hn'
    obtain ⟨rfl, rfl⟩ := Prod.mk.inj (Option.some.inj hn')
    exact ⟨buf, hbuf, henc⟩

/-- The books and the savepoint do not matter to what is kept. -/
theorem Kept.books (h : Kept b) (l : Ledger) : Kept { b with toLedger := l } where
  roomy := h.roomy
  small := h.small
  owned := h.owned
  saved := h.saved
  kept := h.kept

theorem Kept.saving (h : Kept b) {sp : Option ByteSavepoint}
    (hsaved : ∀ m, sp = some m → ∀ id buf, (id, some buf) ∈ m.undo → buf.length = b.pageSize) :
    Kept { b with savepoint := sp } where
  roomy := h.roomy
  small := h.small
  owned := h.owned
  saved := hsaved
  kept := h.kept

/-- Putting a page aside for the savepoint. -/
theorem Kept.record (h : Kept b) (id : PageId) :
    ∃ sp, b.record id = { b with savepoint := sp } ∧ Kept { b with savepoint := sp } := by
  rw [ByteBatch.record]
  split
  · exact ⟨_, rfl, h⟩
  · next m hm =>
    split
    · exact ⟨_, rfl, h⟩
    · refine ⟨_, rfl, h.saving ?_⟩
      intro m' hm' id' buf hmem
      obtain rfl := Option.some.inj hm'
      rcases mem_put hmem with heq | hold
      · obtain ⟨rfl, hbuf⟩ := Prod.mk.inj heq
        exact h.owned _ buf hbuf.symm
      · exact h.saved m hm id' buf hold

/-! ## Calls on pages -/

/-- What `page_mut` and a write through it can do. -/
theorem pageMut_cases {α : Type} (h : Kept b) (id : PageId)
    (write : Bytes → Except Error (Bytes × α)) :
    ∃ sp, Kept { b with savepoint := sp } ∧
      ((∃ e, pageMut id write b
          = .error e { b with savepoint := sp, nodes := del id b.nodes }) ∨
        ∃ buf buf' a, AssocList.get id b.dirty = some buf ∧ write buf = .ok (buf', a)
          ∧ pageMut id write b = .ok a { b with
              savepoint := sp
              nodes := del id b.nodes
              dirty := put id buf' b.dirty }) := by
  obtain ⟨sp, hrec, hsp⟩ := h.record id
  refine ⟨sp, hsp, ?_⟩
  rw [pageMut, hrec]
  dsimp only
  cases hbuf : AssocList.get id b.dirty with
  | none => exact .inl ⟨_, rfl⟩
  | some buf =>
      dsimp only
      cases hw : write buf with
      | error e => exact .inl ⟨_, rfl⟩
      | ok r => exact .inr ⟨buf, r.1, r.2, rfl, hw, rfl⟩

/-- Whatever is written through `page_mut` stays within the page. -/
theorem kept_pageMut {α : Type} (h : Kept b) (id : PageId)
    {write : Bytes → Except Error (Bytes × α)}
    (hwrite : ∀ buf r, buf.length = b.pageSize → write buf = .ok r → r.1.length = b.pageSize) :
    Kept (afterward (pageMut id write b)) := by
  obtain ⟨sp, hsp, ⟨e, heq⟩ | ⟨buf, buf', a, hbuf, hw, heq⟩⟩ := pageMut_cases h id write
  · rw [heq]
    exact hsp.take id
  · rw [heq]
    exact hsp.write id (hwrite buf _ (h.owned id buf hbuf) hw)

/-- A node that was encoded is what its page encodes. -/
theorem encodeNode_again {n : Node} {buf : Bytes} {r : Bytes × Nat}
    (hhead : PAGE_HEADER_LEN ≤ buf.length) (hlen : buf.length ≤ 2 ^ 16)
    (h : encodeNode n buf = .ok r) : r.1.length = buf.length ∧ encodeNode n r.1 = .ok r := by
  obtain ⟨hfits, rfl⟩ := (encodeNode_eq_ok hhead hlen).mp h
  have hframe := length_frame hhead hfits
  refine ⟨hframe, (encodeNode_eq_ok (hframe ▸ hhead) (hframe ▸ hlen)).mpr ⟨hframe ▸ hfits, ?_⟩⟩
  rw [frame_frame hhead hfits]

theorem kept_encodeInto (h : Kept b) (id : PageId) (n : Node) :
    Kept (afterward (encodeInto id n b)) := by
  show Kept (afterward (EStateM.bind (pageMut id (encodeNode n)) _ b))
  unfold EStateM.bind
  obtain ⟨sp, hsp, ⟨e, heq⟩ | ⟨buf, buf', size, hbuf, hw, heq⟩⟩ :=
    pageMut_cases h id (encodeNode n)
  · rw [heq]
    exact hsp.take id
  · have hlen := h.owned id buf hbuf
    obtain ⟨hlen', hagain⟩ := encodeNode_again (hlen ▸ h.roomy) (hlen ▸ h.small) hw
    rw [heq]
    refine (hsp.write id (hlen'.trans hlen)).keep ?_ hagain
    exact (get_put ..).trans (if_pos rfl)

theorem kept_writePart (h : Kept b) (id next : PageId) (part : Bytes) :
    Kept (afterward (writePart id next part b)) := by
  refine kept_pageMut h id ?_
  intro buf r hlen hr
  split at hr
  · nomatch hr
  · obtain ⟨hok, hfits⟩ := writes_store [le 8 next, le 2 part.length, part] PAGE_HEADER_LEN buf
      (hlen ▸ h.roomy) (hlen ▸ h.small)
    cases hs : store [le 8 next, le 2 part.length, part] PAGE_HEADER_LEN buf with
    | error e =>
        rw [hs] at hr
        nomatch hr
    | ok r' =>
        have hin := hfits r' hs
        rw [hok hin] at hr
        obtain rfl := Except.ok.inj hr
        exact (length_blit hin).trans hlen

theorem afterward_decodePage (page : PageId) (b : ByteBatch) :
    afterward (decodePage page b) = b := by
  unfold decodePage
  split
  · rfl
  · split <;> rfl

theorem kept_loadNode (h : Kept b) (page : PageId) : Kept (afterward (loadNode page b)) := by
  unfold loadNode
  split
  · exact h.take page
  · rw [afterward_decodePage]
    exact h

/-- Taking a page id changes the books and nothing else. -/
theorem takePageId_books (b : ByteBatch) :
    ∃ l : Ledger, b.takePageId.2 = { b with toLedger := l } := by
  have hrefill : ∃ l : Ledger, b.refillPool = { b with toLedger := l } := by
    rw [refillPool]
    split
    · split
      · exact ⟨_, rfl⟩
      · split <;> exact ⟨_, rfl⟩
    · exact ⟨b.toLedger, rfl⟩
  rw [takePageId]
  split
  · obtain ⟨l, hl⟩ := hrefill
    dsimp only
    rw [hl]
    split <;> exact ⟨_, rfl⟩
  · exact ⟨_, rfl⟩

theorem kept_allocate (h : Kept b) (kind : PageKind) : Kept (b.allocate kind).2 := by
  obtain ⟨l, hl⟩ := takePageId_books b
  obtain ⟨sp, hrec, hsp⟩ := (h.books l).record b.takePageId.1
  have hblank : (initHeader kind (List.replicate b.pageSize 0)).length = b.pageSize := by
    have hfits : 4 + [PageKind.byte kind, 0, 0, 0].length
        ≤ (List.replicate b.pageSize (0 : UInt8)).length := by
      rw [List.length_replicate]
      exact Nat.le_trans (show (8 : Nat) ≤ PAGE_HEADER_LEN by decide) h.roomy
    rw [initHeader, length_blit hfits, List.length_replicate]
  rw [ByteBatch.allocate]
  dsimp only
  rw [hl, hrec]
  exact hsp.write b.takePageId.1 hblank

/-- **IN PLACE IS ENCODED ANEW**: moving the tail up and writing the cell into
    the gap leaves the page that the leaf with the cell is encoded to. -/
theorem Kept.insertCell (h : Kept b) {page : PageId} {es : List (Key × ValueRef)} {used i : Nat}
    (hn : AssocList.get page b.nodes = some (.leaf es, used)) (hi : i ≤ es.length) {key : Key}
    {v : ValueRef} (hroom : used + leafCellSize key v ≤ b.pageSize) :
    ∃ buf buf', AssocList.get page b.dirty = some buf ∧ buf'.length = b.pageSize
      ∧ insertCellBytes (cellOffset es used i) used (key, v) buf = .ok buf'
      ∧ encodeNode (.leaf (es.insertIdx i (key, v))) buf
          = .ok (buf', used + leafCellSize key v)
      ∧ encodeNode (.leaf (es.insertIdx i (key, v))) buf'
          = .ok (buf', used + leafCellSize key v) := by
  obtain ⟨buf, hbuf, hlen, rfl, hfits, hframe⟩ := h.page hn
  have hhead : PAGE_HEADER_LEN ≤ buf.length := hlen ▸ h.roomy
  have hsmall : buf.length ≤ 2 ^ 16 := hlen ▸ h.small
  have hsize := encodedSize_insertIdx hi key v
  have henc : encodeNode (.leaf (es.insertIdx i (key, v))) buf
      = .ok (frame (.leaf (es.insertIdx i (key, v))) buf,
        (Node.leaf es).encodedSize + leafCellSize key v) := by
    refine (encodeNode_eq_ok hhead hsmall).mpr ⟨?_, by rw [hsize]⟩
    rw [hsize, hlen]
    exact hroom
  obtain ⟨hlen', hagain⟩ := encodeNode_again hhead hsmall henc
  exact ⟨buf, _, hbuf, hlen'.trans hlen,
    insertCellBytes_eq (key, v) hi hhead hsmall hframe (hlen.symm ▸ hroom), henc, hagain⟩

/-- An insert in place that has the room puts the cell into page and node. -/
theorem insertInPlace_done {page : PageId} {es : List (Key × ValueRef)} {used i : Nat}
    {buf buf' : Bytes} {key : Key} {v : ValueRef} {unique : Bool}
    (hn : AssocList.get page b.nodes = some (.leaf es, used))
    (hbuf : AssocList.get page b.dirty = some buf) (hsearch : binarySearch key es = (i, false))
    (hroom : used + leafCellSize key v ≤ b.pageSize)
    (hcell : insertCellBytes (cellOffset es used i) used (key, v) buf = .ok buf') :
    ∃ b', insertInPlace page key v unique b = .ok (some (.done page)) b'
      ∧ AssocList.get page b'.dirty = some buf'
      ∧ AssocList.get page b'.nodes
        = some (.leaf (es.insertIdx i (key, v)), used + leafCellSize key v) := by
  have hsize : (b.record page).pageSize = b.pageSize := by
    rw [ByteBatch.record]
    split
    · rfl
    · split <;> rfl
  unfold insertInPlace
  rw [hn, hbuf]
  dsimp only
  rw [hsearch]
  dsimp only
  rw [hsize, if_pos hroom, hcell]
  exact ⟨_, rfl, (get_put ..).trans (if_pos rfl),
    (get_put ..).trans (if_pos rfl)⟩

theorem kept_insertInPlace (h : Kept b) (page : PageId) (key : Key) (v : ValueRef)
    (unique : Bool) : Kept (afterward (insertInPlace page key v unique b)) := by
  obtain ⟨sp, hrec, hsp⟩ := h.record page
  unfold insertInPlace
  rw [hrec]
  split
  · next es used buf hn hbuf =>
    dsimp only
    have hi := binarySearch_le key es
    split
    · split <;> exact hsp
    · next i hsearch =>
      rw [hsearch] at hi
      split
      · next hroom =>
        obtain ⟨buf₀, buf', hbuf₀, hlen, hcell, -, hagain⟩ := h.insertCell hn hi hroom
        obtain rfl := Option.some.inj (hbuf₀.symm.trans hbuf)
        rw [hcell]
        -- the cell is in both, the node and the bytes
        refine hsp.change page ?_ ?_ ?_ ?_
        · intro id' hid
          exact (get_put ..).trans (if_neg hid)
        · intro id' e hid he
          rwa [get_put, if_neg hid] at he
        · intro buf hput
          rw [get_put, if_pos rfl] at hput
          exact Option.some.inj hput ▸ hlen
        · intro n size hput
          rw [get_put, if_pos rfl] at hput
          obtain ⟨rfl, rfl⟩ := Prod.mk.inj (Option.some.inj hput)
          exact ⟨_, (get_put ..).trans (if_pos rfl), hagain⟩
      · exact hsp
  · exact hsp
  · exact h

/-! ## Calls on trees -/

/-- What was kept in order is kept in order. -/
def Keeps (b b' : ByteBatch) : Prop := Kept b → Kept b'

theorem lasting_keeps : Lasting Keeps bytes where
  refl _ h := h
  trans _ _ _ h h' hb := h' (h hb)
  loadNode page _ h := kept_loadNode h page
  decodePage page b h := by
    show Kept (afterward (QuantyBytes.decodePage page b))
    rw [afterward_decodePage]
    exact h
  allocate ty _ h := kept_allocate h (PageKind.ofType ty)
  encodeInto id n _ h := kept_encodeInto h id n
  writePart id next part _ h := kept_writePart h id next part
  insertInPlace page key v unique _ h := kept_insertInPlace h page key v unique

/-! ## Savepoints -/

theorem kept_undoPage (h : Kept b) (e : PageId × Option Bytes)
    (he : ∀ buf, e.2 = some buf → buf.length = b.pageSize) : Kept (b.undoPage e) := by
  rw [undoPage]
  split
  · next buf hbuf => exact h.write e.1 (he buf hbuf)
  · refine h.drop e.1 ?_ ?_
    · intro id' hid
      rw [get_del, if_neg hid]
    · intro buf hbuf
      rw [get_del, if_pos rfl] at hbuf
      nomatch hbuf

theorem pageSize_undoPage (b : ByteBatch) (e : PageId × Option Bytes) :
    (b.undoPage e).pageSize = b.pageSize := by
  rw [undoPage]
  split <;> rfl

/-- One page after another is put back, without what was kept of it. -/
theorem kept_undo (undo : List (PageId × Option Bytes)) (h : Kept b)
    (hundo : ∀ id buf, (id, some buf) ∈ undo → buf.length = b.pageSize) :
    Kept (undo.foldl undoPage b) := by
  induction undo generalizing b with
  | nil => exact h
  | cons e rest ih =>
      refine ih (kept_undoPage h e ?_) ?_
      · intro buf hbuf
        exact hundo e.1 buf (hbuf ▸ (.head _))
      · intro id buf hmem
        rw [pageSize_undoPage]
        exact hundo id buf (List.mem_cons_of_mem e hmem)

theorem kept_rollbackSavepoint (h : Kept b) : Kept b.rollbackSavepoint := by
  rw [rollbackSavepoint]
  split
  · exact h
  · next m hm =>
    exact ((kept_undo m.undo h (h.saved m hm)).books m.ledger).saving nofun

/-! ## Runs -/

/-- What a holder of the page's bytes may do to them: a slice keeps its
    length. -/
structure Edit where
  apply : Bytes → Bytes
  length_apply : ∀ buf, (apply buf).length = buf.length

inductive Op
  | put (root : PageId) (key : Key) (value : Bytes)
  | putUnique (root : PageId) (key : Key) (value : Bytes)
  | remove (root : PageId) (key : Key)
  | allocate (kind : PageKind)
  | pageMut (id : PageId) (edit : Edit)
  | savepoint
  | rollbackSavepoint
  | releaseSavepoint
  | suspendResume

/-- The batch after a call, whether the call failed or not. -/
def Op.run : Op → ByteBatch → ByteBatch
  | .put root key value, b => afterward (QuantyTreeCalls.put bytes root key value b)
  | .putUnique root key value, b => afterward (QuantyTreeCalls.putUnique bytes root key value b)
  | .remove root key, b => afterward (QuantyTreeCalls.remove bytes root key b)
  | .allocate kind, b => (b.allocate kind).2
  | .pageMut id edit, b => afterward (ByteBatch.pageMut id (fun buf => .ok (edit.apply buf, ())) b)
  | .savepoint, b => b.mark
  | .rollbackSavepoint, b => b.rollbackSavepoint
  | .releaseSavepoint, b => b.releaseSavepoint
  | .suspendResume, b => b.suspendResume

def runOps (ops : List Op) (b : ByteBatch) : ByteBatch := ops.foldl (fun b op => op.run b) b

/-- **ONE CALL** keeps the invariant, whatever it answers. -/
theorem Op.keeps (op : Op) (b : ByteBatch) : Keeps b (op.run b) := by
  intro h
  cases op with
  | put root key value => exact respects_put lasting_keeps root key value b h
  | putUnique root key value => exact respects_putUnique lasting_keeps root key value b h
  | remove root key => exact respects_remove lasting_keeps root key b h
  | allocate kind => exact kept_allocate h kind
  | pageMut id edit =>
      refine kept_pageMut h id ?_
      intro buf r hlen hr
      obtain rfl := Except.ok.inj hr
      exact (edit.length_apply buf).trans hlen
  | savepoint =>
      refine h.saving ?_
      intro m hm id buf hmem
      obtain rfl := Option.some.inj hm
      nomatch hmem
  | rollbackSavepoint => exact kept_rollbackSavepoint h
  | releaseSavepoint => exact h.saving nofun
  | suspendResume =>
      show Kept b.suspendResume
      rw [ByteBatch.suspendResume]
      split
      · exact h
      · exact h.saving nofun

theorem runOps_keeps (ops : List Op) (b : ByteBatch) : Keeps b (runOps ops b) := by
  induction ops generalizing b with
  | nil => exact id
  | cons op rest ih => exact fun h => ih (op.run b) (op.keeps b h)

/-- **KEPT NODES NEVER DRIFT**.  In every state of a batch that calls lead to,
    a kept node stands beside a page the batch owns and has its size right.
    Encoding it into that page again changes nothing, and encoding it into any
    buffer gives the same bytes behind the header, zeros included.  Moving
    cells up and writing one into the gap, at any index of a kept leaf, leaves
    the page that the leaf with the cell is encoded to, and that is what an
    insert in place leaves. -/
theorem kept_nodes_never_drift (p : BytePager) (m : Meta) (ops : List Op)
    (hps : validPageSize p.pageSize = true) (id : PageId) (n : Node) (size : Nat)
    (hkept : AssocList.get id (runOps ops (start p m)).nodes = some (n, size)) :
    ∃ buf, AssocList.get id (runOps ops (start p m)).dirty = some buf
      ∧ size = n.encodedSize
      ∧ encodeNode n buf = .ok (buf, size)
      ∧ (∀ fresh : Bytes, fresh.length = buf.length → ∃ page,
          encodeNode n fresh = .ok (page, size)
            ∧ page.drop PAGE_HEADER_LEN = buf.drop PAGE_HEADER_LEN)
      ∧ ∀ es, n = .leaf es → ∀ i, i ≤ es.length → ∀ key v,
          size + leafCellSize key v ≤ (runOps ops (start p m)).pageSize → ∃ buf',
            insertCellBytes (cellOffset es size i) size (key, v) buf = .ok buf'
              ∧ encodeNode (.leaf (es.insertIdx i (key, v))) buf
                = .ok (buf', size + leafCellSize key v)
              ∧ ∀ unique, binarySearch key es = (i, false) → ∃ b',
                insertInPlace id key v unique (runOps ops (start p m)) = .ok (some (.done id)) b'
                  ∧ AssocList.get id b'.dirty = some buf'
                  ∧ AssocList.get id b'.nodes
                    = some (.leaf (es.insertIdx i (key, v)), size + leafCellSize key v) := by
  obtain ⟨hroomy, hsmall⟩ := le_of_validPageSize hps
  have h := runOps_keeps ops _
    (kept_start m (Nat.le_trans (show PAGE_HEADER_LEN ≤ 512 by decide) hroomy) hsmall)
  obtain ⟨buf, hbuf, hlen, hsize, hfits, hframe⟩ := h.page hkept
  have hhead : PAGE_HEADER_LEN ≤ buf.length := hlen ▸ h.roomy
  have hmost : buf.length ≤ 2 ^ 16 := hlen ▸ h.small
  refine ⟨buf, hbuf, hsize, (encodeNode_eq_ok hhead hmost).mpr ⟨hfits, by rw [hframe, hsize]⟩,
    ?_, ?_⟩
  · intro fresh hfresh
    refine ⟨frame n fresh, (encodeNode_eq_ok (hfresh ▸ hhead) (hfresh ▸ hmost)).mpr
      ⟨hfresh ▸ hfits, by rw [hsize]⟩, ?_⟩
    rw [← hframe, drop_frame (hfresh ▸ hhead), drop_frame hhead, hfresh]
  · rintro es rfl i hi key v hroom
    obtain ⟨buf₀, buf', hbuf₀, -, hcell, henc, -⟩ := h.insertCell hkept hi hroom
    obtain rfl := Option.some.inj (hbuf₀.symm.trans hbuf)
    refine ⟨buf', hcell, henc, ?_⟩
    intro unique hsearch
    exact insertInPlace_done hkept hbuf hsearch hroom hcell

/-- A batch on a new file in which a key is put and taken back by a savepoint,
    two more are put around the place it had, and the first is removed. -/
def mixedOps : ByteBatch :=
  runOps [.put NIL_PAGE [1] [7], .savepoint, .put 2 [3] [8], .rollbackSavepoint,
    .put 2 [5] [9, 9], .put 2 [2] [6], .remove 2 [1]]
    (start ⟨512, 0, fun id => .error (.pageOutOfBounds id)⟩ (Pager.initial 512 0).committed)

/-- The leaf that is left is what its page says, and takes another cell between
    its two in place. -/
theorem kept_nodes_never_drift_mixed :
    ∃ buf, AssocList.get 2 mixedOps.dirty = some buf
      ∧ encodeNode (.leaf [([2], .inline [6]), ([5], .inline [9, 9])]) buf = .ok (buf, 35)
      ∧ ∃ b', insertInPlace 2 [4] (.inline [1]) false mixedOps = .ok (some (.done 2)) b'
        ∧ AssocList.get 2 b'.nodes
          = some (.leaf [([2], .inline [6]), ([4], .inline [1]), ([5], .inline [9, 9])], 44) := by
  obtain ⟨buf, hbuf, -, henc, -, hinsert⟩ := kept_nodes_never_drift _ _ _ (by decide) 2
    (.leaf [([2], .inline [6]), ([5], .inline [9, 9])]) 35
    (show AssocList.get 2 mixedOps.nodes = _ by decide +kernel)
  obtain ⟨buf', -, -, hdone⟩ := hinsert _ rfl 1 (by decide) [4] (.inline [1])
    (show _ ≤ mixedOps.pageSize by decide +kernel)
  obtain ⟨b', hb', -, hnodes⟩ := hdone false (by decide)
  exact ⟨buf, hbuf, henc, b', hb', hnodes⟩

end QuantyBytes
