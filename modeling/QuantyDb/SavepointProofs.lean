import QuantyDb.PagerProofs

/-! # Everything a caller does to a batch, and the way back

    Between `begin` and `commit` a caller allocates, writes, sets roots, marks
    savepoints and rolls back to them, and puts the batch down and picks it up
    again.  `Action` is that list and `runActions` is a run of it.

    Two things are shown of every run.  A rollback restores what the batch was
    at the mark: each write remembers what its page held first, so what the
    undo list and the pages say together never changes (`Tracks`).  And the
    books balance: every id that the committed free list named is still free,
    a page of the old chain, or written by the batch (`Books`). -/

namespace QuantySavepoint

open QuantyKey QuantyPage QuantyPager QuantyPagerInv CowHeap AssocList Batch

/-- What a caller may ask of a batch. -/
inductive Action
  | allocate (ty : PageType)
  | pageMut (id : PageId) (f : Page → Page)
  | keptAndPageMut (id : PageId) (f : Node × Nat → Page → (Node × Nat) × Page)
  | takeNodeSized (id : PageId)
  | keepNodeSized (id : PageId) (n : Node) (size : Nat)
  | setDataRoot (root : PageId)
  | setCatalogRoot (root : PageId)
  | setCommitPage (page : PageId)
  | setRefsRoot (root : PageId)
  | setFreelist (ids : List PageId)
  | savepoint
  | releaseSavepoint
  | rollbackSavepoint
  | suspendResume

/-- The batch after a call, whether the call failed or not. -/
def after {α : Type} : EStateM.Result Error Batch α → Batch
  | .ok _ b => b
  | .error _ b => b

/-- A batch put down and picked up again.  A refusal leaves no batch at all;
    the run goes on with the one that was put down, which is more than the
    source offers. -/
def resumed (b : Batch) : Batch :=
  match b.pager.resume b.suspend with
  | .ok b' => b'
  | .error _ => b

def Action.run : Action → Batch → Batch
  | .allocate ty, b => (b.allocate ty).2
  | .pageMut id f, b => after (Batch.pageMut id f b)
  | .keptAndPageMut id f, b => b.keptAndPageMut id f
  | .takeNodeSized id, b => (b.takeNodeSized id).2
  | .keepNodeSized id n size, b => b.keepNodeSized id n size
  | .setDataRoot root, b => b.setDataRoot root
  | .setCatalogRoot root, b => b.setCatalogRoot root
  | .setCommitPage page, b => b.setCommitPage page
  | .setRefsRoot root, b => b.setRefsRoot root
  | .setFreelist ids, b => b.setFreelist ids
  | .savepoint, b => b.mark
  | .releaseSavepoint, b => b.releaseSavepoint
  | .rollbackSavepoint, b => b.rollbackSavepoint
  | .suspendResume, b => resumed b

def runActions (acts : List Action) (b : Batch) : Batch :=
  acts.foldl (fun b a => a.run b) b

/-! ## The way back -/

/-- What a page held at the mark, by the undo list and what it holds now. -/
def before (m : Savepoint) (dirty : List (PageId × Page)) (id : PageId) : Option Page :=
  match AssocList.get id m.undo with
  | some old => old
  | none => AssocList.get id dirty

theorem get_undoPage (b : Batch) (e : PageId × Option Page) (id : PageId) :
    AssocList.get id (b.undoPage e).dirty = if id = e.1 then e.2 else AssocList.get id b.dirty := by
  obtain ⟨k, old⟩ := e
  cases old with
  | none =>
      show AssocList.get id (del k b.dirty) = _
      rw [get_del]
  | some p =>
      show AssocList.get id (put k p b.dirty) = _
      rw [get_put]

/-- What putting a page back leaves alone. -/
theorem undoPage_rest (b : Batch) (e : PageId × Option Page) :
    (b.undoPage e).pager = b.pager ∧ (b.undoPage e).base = b.base := by
  obtain ⟨k, old⟩ := e
  cases old <;> exact ⟨rfl, rfl⟩

variable {b b' : Batch} {m : Savepoint} {q : Page} {L : FreePages}

theorem undoPage_sorted (h : AssocList.Sorted b.dirty) (e : PageId × Option Page) :
    AssocList.Sorted (b.undoPage e).dirty := by
  obtain ⟨k, old⟩ := e
  cases old with
  | none => exact sorted_del h k
  | some p => exact sorted_put h k p

theorem undoPages_rest (undo : List (PageId × Option Page)) (b : Batch) :
    (undo.foldl undoPage b).pager = b.pager
      ∧ (undo.foldl undoPage b).base = b.base
      ∧ (AssocList.Sorted b.dirty → AssocList.Sorted (undo.foldl undoPage b).dirty) := by
  induction undo generalizing b with
  | nil => exact ⟨rfl, rfl, id⟩
  | cons e rest ih =>
      obtain ⟨hp, hb, hs⟩ := ih (b.undoPage e)
      obtain ⟨hp', hb'⟩ := undoPage_rest b e
      exact ⟨hp.trans hp', hb.trans hb', fun h => hs (undoPage_sorted h e)⟩

/-- Each page is put back once, so the order of the undo list is no matter. -/
theorem get_undoPages {undo : List (PageId × Option Page)} (h : AssocList.Sorted undo) (b : Batch)
    (id : PageId) :
    AssocList.get id (undo.foldl undoPage b).dirty
      = match AssocList.get id undo with
        | some old => old
        | none => AssocList.get id b.dirty := by
  induction undo generalizing b with
  | nil => rfl
  | cons e rest ih =>
      show AssocList.get id (rest.foldl undoPage (b.undoPage e)).dirty = _
      rw [ih (List.pairwise_cons.mp h).2, get_undoPage]
      by_cases hid : id = e.1
      · subst hid
        simp [AssocList.get, h.get_tail]
      · simp [AssocList.get, hid, Ne.symm hid]

/-- **ROLLING BACK**: the ledger of the mark, and every page as it was. -/
theorem get_rollback (hm : b.savepoint = some m) (hs : AssocList.Sorted m.undo) (id : PageId) :
    AssocList.get id b.rollbackSavepoint.dirty = before m b.dirty id := by
  rw [rollbackSavepoint, hm]
  exact get_undoPages hs b id

theorem rollback_rest (hm : b.savepoint = some m) :
    b.rollbackSavepoint.toLedger = m.ledger ∧ b.rollbackSavepoint.pager = b.pager
      ∧ b.rollbackSavepoint.base = b.base ∧ b.rollbackSavepoint.savepoint = none
      ∧ (AssocList.Sorted b.dirty → AssocList.Sorted b.rollbackSavepoint.dirty) := by
  rw [rollbackSavepoint, hm]
  obtain ⟨hp, hb, hs⟩ := undoPages_rest m.undo b
  exact ⟨rfl, hp, hb, rfl, hs⟩

/-- A call keeps the way back: the mark is the same, and so is what each page
    held at the mark. -/
structure Tracks (b b' : Batch) : Prop where
  pager : b'.pager = b.pager
  base : b'.base = b.base
  back : ∀ m', b'.savepoint = some m' → ∃ m, b.savepoint = some m ∧ m'.ledger = m.ledger
    ∧ (AssocList.Sorted m.undo → AssocList.Sorted m'.undo)
    ∧ ∀ id, before m' b'.dirty id = before m b.dirty id

/-- A call that touches neither pages nor savepoint. -/
theorem tracks_quiet (hp : b'.pager = b.pager) (hb : b'.base = b.base) (hd : b'.dirty = b.dirty)
    (hs : b'.savepoint = b.savepoint) : Tracks b b' := by
  refine ⟨hp, hb, ?_⟩
  intro m hm
  rw [hd]
  exact ⟨m, hs ▸ hm, rfl, id, fun _ => rfl⟩

theorem Tracks.refl (b : Batch) : Tracks b b := tracks_quiet rfl rfl rfl rfl

theorem Tracks.trans {b'' : Batch} (h : Tracks b b') (h' : Tracks b' b'') : Tracks b b'' := by
  refine ⟨h'.pager.trans h.pager, h'.base.trans h.base, ?_⟩
  intro m'' hm''
  obtain ⟨m', hm', hl', hs', hb'⟩ := h'.back m'' hm''
  obtain ⟨m, hm, hl, hs, hb⟩ := h.back m' hm'
  exact ⟨m, hm, hl'.trans hl, fun h => hs' (hs h), fun id => (hb' id).trans (hb id)⟩

/-- Recording makes every later change to the page one that is undone. -/
theorem tracks_record (id : PageId) (hp : b'.pager = b.pager) (hb : b'.base = b.base)
    (hs : b'.savepoint = (b.record id).savepoint)
    (hd : ∀ x, x ≠ id → AssocList.get x b'.dirty = AssocList.get x b.dirty) : Tracks b b' := by
  refine ⟨hp, hb, ?_⟩
  intro m' hm'
  rw [hs, record] at hm'
  split at hm'
  · next hnone => nomatch hnone.symm.trans hm'
  · next m hm =>
    refine ⟨m, hm, ?_⟩
    split at hm'
    · next hsome =>
      obtain rfl : m = m' := Option.some.inj (hm.symm.trans hm')
      refine ⟨rfl, (fun h => h), ?_⟩
      intro x
      by_cases hx : x = id
      · obtain ⟨old, hold⟩ := Option.isSome_iff_exists.mp hsome
        rw [before, before, hx, hold]
      · rw [before, before, hd x hx]
    · next hnone =>
      obtain rfl := Option.some.inj hm'
      refine ⟨rfl, (fun h => sorted_put h _ _), ?_⟩
      intro x
      show (match AssocList.get x (put id (AssocList.get id b.dirty) m.undo) with
        | some old => old
        | none => AssocList.get x b'.dirty) = _
      rw [get_put, before]
      by_cases hx : x = id
      · rw [if_pos hx, hx, Option.not_isSome_iff_eq_none.mp hnone]
      · rw [if_neg hx, hd x hx]

/-! ## The books -/

/-- **THE BOOKS OF A BATCH** over the free list `L₀` of the committed state,
    of which `L` is unread: nothing the list named is lost, what the batch
    wrote it took from the list or from past the end of the file, and it wrote
    every page that it added there. -/
structure Books (b : Batch) (L₀ L : FreePages) : Prop
    extends Accounted b L where
  sorted : AssocList.Sorted b.dirty
  root : b.freelistRoot = b.base.freelistRoot
  whole : b.touchedFreelist = false → L = L₀
  free_sub : ∀ x ∈ freeIds b L, x ∈ L₀.flatMap Prod.snd
  chain_mem : ∀ x, x ∈ chainIds b L ↔ x ∈ L₀.map Prod.fst
  spent : ∀ x ∈ L₀.flatMap Prod.snd, x ∈ freeIds b L ∨ b.owns x = true
  origin : ∀ x, b.owns x = true → x ∈ L₀.flatMap Prod.snd ∨ b.base.pageCount ≤ x
  filled : ∀ x, b.base.pageCount ≤ x → x < b.nextPage → b.owns x = true

section Books

variable {b b' : Batch} {L₀ L : FreePages}

theorem books_begin {p : Pager} (h : FreeListSound p L₀) : Books p.begin L₀ L₀ := by
  refine ⟨(sound_begin h).toAccounted, List.Pairwise.nil, rfl, fun _ => rfl, ?_, ?_, ?_, ?_,
    fun x hle hlt => absurd hlt (not_lt.mpr hle)⟩
  · intro x hx
    simpa [freeIds, Pager.begin] using hx
  · intro x
    simp [chainIds, Pager.begin]
  · intro x hx
    exact .inl (List.mem_append_right _ hx)
  · intro x hx
    cases hx

/-- The accounts depend on the pages only through what each id holds. -/
theorem accounted_congr (h : Accounted b L) (hl : b'.toLedger = b.toLedger)
    (hp : b'.pager = b.pager) (hb : b'.base = b.base)
    (hd : ∀ x, AssocList.get x b'.dirty = AssocList.get x b.dirty) : Accounted b' L := by
  have hfree : freeIds b' L = freeIds b L := by rw [freeIds, freeIds, hl]
  have hchain : chainIds b' L = chainIds b L := by rw [chainIds, chainIds, hl]
  refine ⟨?_, ?_, ?_, ?_, ?_, ?_, ?_, ?_, ?_⟩
  · rw [hp, hl]; exact h.chain
  · rw [hfree, hchain]; exact h.nodup
  · rw [hfree, hchain, hb]; exact h.range
  · rw [hfree, hchain]
    intro x hx
    rw [hd]; exact h.unowned x hx
  · rw [hp, hb]; exact h.committed
  · rw [hb]; exact h.two
  · rw [hb, hl]; exact h.grows
  · intro x p hx
    rw [hl]; exact h.owned x p (hd x ▸ hx)
  · rw [hl]; exact h.idle

/-- So do the books. -/
theorem Books.congr (h : Books b L₀ L) (hl : b'.toLedger = b.toLedger) (hp : b'.pager = b.pager)
    (hb : b'.base = b.base) (hs : AssocList.Sorted b'.dirty)
    (hd : ∀ x, AssocList.get x b'.dirty = AssocList.get x b.dirty) : Books b' L₀ L := by
  have howns : ∀ x, b'.owns x = b.owns x := fun x => congrArg Option.isSome (hd x)
  have hfree : freeIds b' L = freeIds b L := by rw [freeIds, freeIds, hl]
  have hchain : chainIds b' L = chainIds b L := by rw [chainIds, chainIds, hl]
  refine ⟨accounted_congr h.toAccounted hl hp hb hd, hs, ?_, ?_, ?_, ?_, ?_, ?_, ?_⟩
  · rw [hb, hl]; exact h.root
  · rw [hl]; exact h.whole
  · rw [hfree]; exact h.free_sub
  · rw [hchain]; exact h.chain_mem
  · intro x hx
    rw [hfree, howns]; exact h.spent x hx
  · intro x hx
    rw [hb]; exact h.origin x (howns x ▸ hx)
  · intro x hle hlt
    rw [hb] at hle
    rw [hl] at hlt
    rw [howns]; exact h.filled x hle hlt

/-- Writing a page that the batch owns. -/
theorem Books.rewrite (h : Books b L₀ L) {id : PageId} (hq : AssocList.get id b.dirty = some q)
    (p : Page) (sp : Option Savepoint) (ns : List (PageId × (Node × Nat))) :
    Books { b with dirty := put id p b.dirty, savepoint := sp, nodes := ns } L₀ L := by
  have hout : id ∉ freeIds b L ++ chainIds b L := by
    intro hm
    nomatch (h.unowned id hm).symm.trans hq
  obtain ⟨h2, hlt⟩ := h.owned id q hq
  refine ⟨accounted_write h.toAccounted hout h2 hlt p sp ns, sorted_put h.sorted id p,
    h.root, h.whole, h.free_sub, h.chain_mem, ?_, ?_,
    fun x hle hlt => (owns_put sp ns p x).mpr (.inr (h.filled x hle hlt))⟩
  · intro x hx
    rcases h.spent x hx with hfree | hown
    · exact .inl hfree
    · exact .inr ((owns_put sp ns p x).mpr (.inr hown))
  · intro x hx
    rcases (owns_put sp ns p x).mp hx with rfl | hown
    · exact h.origin x (owns_iff.mpr ⟨q, hq⟩)
    · exact h.origin x hown

/-- Taking an id and writing its first page. -/
theorem Books.take (h : Books b L₀ L) (p : Page) (sp : Option Savepoint)
    (ns : List (PageId × (Node × Nat))) :
    ∃ L', Books { b.takePageId.2 with
      dirty := put b.takePageId.1 p b.takePageId.2.dirty, savepoint := sp, nodes := ns }
      L₀ L' := by
  obtain ⟨L', ht⟩ := takePageId_taken h.toAccounted
  have hroot : b.takePageId.2.freelistRoot = b.takePageId.2.base.freelistRoot := by
    rw [ht.stays.freelistRoot, ht.stays.base]
    exact h.root
  have howns : ∀ x, b.takePageId.2.owns x = b.owns x := by
    intro x
    rw [owns, owns, ht.dirty]
  refine ⟨L', accounted_write ht.accounted ht.unlisted ht.two ht.lt p sp ns,
    sorted_put (ht.dirty ▸ h.sorted) _ p, hroot, ?_,
    fun x hx => h.free_sub x (ht.free_sub x hx), fun x => (ht.chain_mem x).trans (h.chain_mem x),
    ?_, ?_, ?_⟩
  · intro huntouched
    obtain ⟨hledger, rfl⟩ := ht.untouched huntouched
    refine h.whole ?_
    have := congrArg Ledger.touchedFreelist hledger
    exact this.symm.trans huntouched
  · intro x hx
    rcases h.spent x hx with hfree | hown
    · rcases ht.free_left x hfree with rfl | hleft
      · exact .inr ((owns_put sp ns p _).mpr (.inl rfl))
      · exact .inl hleft
    · exact .inr ((owns_put sp ns p x).mpr (.inr ((howns x).trans hown)))
  · intro x hx
    show _ ∨ b.takePageId.2.base.pageCount ≤ x
    rw [ht.stays.base]
    rcases (owns_put sp ns p x).mp hx with rfl | hown
    · rcases ht.avail with hle | hm
      · exact .inr (h.grows.trans hle)
      · exact .inl (h.free_sub _ hm)
    · exact h.origin x ((howns x).symm.trans hown)
  · intro x hle hlt
    have hle' : b.base.pageCount ≤ x := ht.stays.base ▸ hle
    refine (owns_put sp ns p x).mpr ?_
    rcases lt_or_ge x b.nextPage with hold | hnew
    · exact .inr ((howns x).trans (h.filled x hle' hold))
    · exact .inl (ht.filled x hnew hlt)

end Books

/-! ## Runs -/

/-- The books balance now, and balance where a rollback would lead. -/
structure Balanced (p : Pager) (L₀ : FreePages) (b : Batch) : Prop where
  pager : b.pager = p
  now : ∃ L, Books b L₀ L
  back : ∀ m, b.savepoint = some m →
    AssocList.Sorted m.undo ∧ ∃ L, Books b.rollbackSavepoint L₀ L

section Runs

variable {p : Pager} {L₀ : FreePages} {b b' : Batch}

theorem balanced_begin (h : FreeListSound p L₀) : Balanced p L₀ p.begin :=
  ⟨rfl, ⟨L₀, books_begin h⟩, nofun⟩

/-- A call that keeps the way back and balances keeps the balance. -/
theorem Balanced.step (h : Balanced p L₀ b) (ht : Tracks b b') (hnow : ∃ L, Books b' L₀ L) :
    Balanced p L₀ b' := by
  refine ⟨ht.pager.trans h.pager, hnow, ?_⟩
  intro m' hm'
  obtain ⟨m, hm, hledger, hsorted, hbefore⟩ := ht.back m' hm'
  obtain ⟨hs, L, hL⟩ := h.back m hm
  obtain ⟨L', hL'⟩ := hnow
  obtain ⟨hl, hp, hb, -, -⟩ := rollback_rest hm
  obtain ⟨hl', hp', hb', -, hd'⟩ := rollback_rest hm'
  refine ⟨hsorted hs, L, hL.congr (hl'.trans (hledger.trans hl.symm))
    (hp'.trans (ht.pager.trans hp.symm)) (hb'.trans (ht.base.trans hb.symm)) (hd' hL'.sorted) ?_⟩
  intro x
  rw [get_rollback hm' (hsorted hs), get_rollback hm hs]
  exact hbefore x

/-- Recording looks at the savepoint and the pages alone. -/
theorem record_savepoint_congr (id : PageId) (hs : b'.savepoint = b.savepoint)
    (hd : b'.dirty = b.dirty) : (b'.record id).savepoint = (b.record id).savepoint := by
  rw [record, record, hs, hd]
  split
  · exact hs
  · split
    · exact hs
    · rfl

/-- What allocating leaves, with the savepoint it leaves. -/
theorem allocate_eq (b : Batch) (ty : PageType) : ∃ sp, (b.allocate ty).2 = { b.takePageId.2 with
      dirty := put b.takePageId.1 (Page.blank ty) b.takePageId.2.dirty
      savepoint := sp
      nodes := del b.takePageId.1 b.takePageId.2.nodes }
    ∧ sp = (b.takePageId.2.record b.takePageId.1).savepoint := by
  obtain ⟨sp, hrec⟩ := record_eq b.takePageId.1 b.takePageId.2
  refine ⟨sp, ?_, by rw [hrec]⟩
  show setPage b.takePageId.1 (Page.blank ty)
    (record b.takePageId.1 b.takePageId.2) = _
  rw [hrec]
  rfl

theorem allocate_tracks (hL : Books b L₀ L) (ty : PageType) : Tracks b (b.allocate ty).2 := by
  obtain ⟨L', ht⟩ := takePageId_taken hL.toAccounted
  obtain ⟨sp, hb', hsp⟩ := allocate_eq b ty
  rw [hb']
  refine tracks_record b.takePageId.1 ht.stays.pager ht.stays.base
    (hsp.trans (record_savepoint_congr b.takePageId.1 ht.savepoint ht.dirty)) ?_
  intro x hx
  show AssocList.get x (put _ _ b.takePageId.2.dirty) = _
  rw [get_put, if_neg hx, ht.dirty]

theorem allocate_balanced (h : Balanced p L₀ b) (ty : PageType) :
    Balanced p L₀ (b.allocate ty).2 := by
  obtain ⟨L, hL⟩ := h.now
  obtain ⟨sp, hb', -⟩ := allocate_eq b ty
  exact h.step (allocate_tracks hL ty) (hb' ▸ hL.take (Page.blank ty) sp _)

theorem record_tracks (b : Batch) (id : PageId) (ns : List (PageId × (Node × Nat))) :
    Tracks b { b.record id with nodes := ns } := by
  obtain ⟨sp, hrec⟩ := record_eq id b
  refine tracks_record id ?_ ?_ rfl ?_
  all_goals rw [hrec]
  exact fun _ _ => rfl

/-- A call that touches the savepoint by recording a page, and no page. -/
theorem record_balanced (h : Balanced p L₀ b) (id : PageId) (ns : List (PageId × (Node × Nat))) :
    Balanced p L₀ { b.record id with nodes := ns } := by
  obtain ⟨L, hL⟩ := h.now
  obtain ⟨sp, hrec⟩ := record_eq id b
  refine h.step (record_tracks b id ns) ⟨L, hL.congr ?_ ?_ ?_ ?_ ?_⟩
  all_goals rw [hrec]
  · exact hL.sorted
  · exact fun _ => rfl

theorem rewrite_tracks (b : Batch) (id : PageId) (new : Page)
    (ns : List (PageId × (Node × Nat))) :
    Tracks b { b with
      dirty := put id new b.dirty, savepoint := (b.record id).savepoint, nodes := ns } := by
  refine tracks_record id rfl rfl rfl ?_
  intro x hx
  show AssocList.get x (put id new b.dirty) = _
  rw [get_put, if_neg hx]

/-- A call that records a page the batch owns and writes it. -/
theorem rewrite_balanced (h : Balanced p L₀ b) {id : PageId}
    (hq : AssocList.get id b.dirty = some q) (new : Page) (ns : List (PageId × (Node × Nat))) :
    Balanced p L₀ { b with
      dirty := put id new b.dirty, savepoint := (b.record id).savepoint, nodes := ns } := by
  obtain ⟨L, hL⟩ := h.now
  exact h.step (rewrite_tracks b id new ns) ⟨L, hL.rewrite hq new _ ns⟩

/-- What writing a page leaves: the page is recorded, and written when the
    batch owns it. -/
theorem pageMut_cases (b : Batch) (id : PageId) (f : Page → Page) :
    (AssocList.get id b.dirty = none ∧ pageMut id f b = .error (.pageNotWritable id)
        { b.record id with nodes := del id b.nodes })
      ∨ ∃ q, AssocList.get id b.dirty = some q ∧ pageMut id f b = .ok () { b with
          dirty := put id (f q) b.dirty, savepoint := (b.record id).savepoint
          nodes := del id b.nodes } := by
  obtain ⟨sp, hrec⟩ := record_eq id b
  cases hd : AssocList.get id b.dirty with
  | none =>
      refine .inl ⟨rfl, ?_⟩
      rw [pageMut, hrec]
      simp only [hd]
  | some q =>
      refine .inr ⟨q, rfl, ?_⟩
      rw [pageMut, hrec]
      simp only [hd]

theorem pageMut_balanced (h : Balanced p L₀ b) (id : PageId) (f : Page → Page) :
    Balanced p L₀ (after (pageMut id f b)) := by
  rcases pageMut_cases b id f with ⟨-, heq⟩ | ⟨q, hd, heq⟩
  · rw [heq]
    exact record_balanced h id _
  · rw [heq]
    exact rewrite_balanced h hd (f q) _

theorem keptAndPageMut_balanced (h : Balanced p L₀ b) (id : PageId)
    (f : Node × Nat → Page → (Node × Nat) × Page) : Balanced p L₀ (b.keptAndPageMut id f) := by
  obtain ⟨sp, hrec⟩ := record_eq id b
  rw [keptAndPageMut]
  split
  · next kept page _ hd =>
    have heq : ({ b.record id with
          nodes := put id (f kept page).1 (b.record id).nodes
          dirty := put id (f kept page).2 (b.record id).dirty } : Batch)
        = { b with
            dirty := put id (f kept page).2 b.dirty
            savepoint := (b.record id).savepoint
            nodes := put id (f kept page).1 b.nodes } := by
      rw [hrec]
    show Balanced p L₀ { b.record id with
      nodes := put id (f kept page).1 (b.record id).nodes
      dirty := put id (f kept page).2 (b.record id).dirty }
    rw [heq]
    exact rewrite_balanced h hd _ _
  · exact h

/-- A call that changes roots, the override or kept copies. -/
theorem quiet_balanced (h : Balanced p L₀ b) (hp : b'.pager = b.pager) (hb : b'.base = b.base)
    (hd : b'.dirty = b.dirty) (hs : b'.savepoint = b.savepoint)
    (hnow : ∀ L, Books b L₀ L → Books b' L₀ L) : Balanced p L₀ b' := by
  obtain ⟨L, hL⟩ := h.now
  exact h.step (tracks_quiet hp hb hd hs) ⟨L, hnow L hL⟩

/-- The roots and the override are no part of the books. -/
theorem Books.reroot (h : Books b L₀ L) (d c k r : PageId) (o : Option (List PageId)) :
    Books { b with
      dataRoot := d, catalogRoot := c, commitPage := k, refsRoot := r, freelistOverride := o }
      L₀ L :=
  ⟨⟨h.chain, h.nodup, h.range, h.unowned, h.committed, h.two, h.grows, h.owned, h.idle⟩, h.sorted,
    h.root, h.whole, h.free_sub, h.chain_mem, h.spent, h.origin, h.filled⟩

theorem setFreelist_balanced (h : Balanced p L₀ b) (ids : List PageId) :
    Balanced p L₀ (b.setFreelist ids) := by
  refine quiet_balanced h rfl rfl rfl rfl ?_
  intro L hL
  exact ⟨⟨hL.chain, hL.nodup, hL.range, hL.unowned, hL.committed, hL.two, hL.grows, hL.owned,
    nofun⟩, hL.sorted, hL.root, nofun, hL.free_sub,
    hL.chain_mem, hL.spent, hL.origin, hL.filled⟩

theorem mark_balanced (h : Balanced p L₀ b) : Balanced p L₀ b.mark := by
  obtain ⟨L, hL⟩ := h.now
  refine ⟨h.pager, ⟨L, hL.congr rfl rfl rfl hL.sorted (fun _ => rfl)⟩, ?_⟩
  intro m hm
  obtain rfl : (⟨b.toLedger, []⟩ : Savepoint) = m := Option.some.inj hm
  exact ⟨List.Pairwise.nil, L, hL.congr rfl rfl rfl hL.sorted (fun _ => rfl)⟩

theorem releaseSavepoint_balanced (h : Balanced p L₀ b) : Balanced p L₀ b.releaseSavepoint := by
  obtain ⟨L, hL⟩ := h.now
  exact ⟨h.pager, ⟨L, hL.congr rfl rfl rfl hL.sorted (fun _ => rfl)⟩, nofun⟩

theorem rollbackSavepoint_balanced (h : Balanced p L₀ b) : Balanced p L₀ b.rollbackSavepoint := by
  cases hm : b.savepoint with
  | none =>
      rw [rollbackSavepoint, hm]
      exact h
  | some m =>
      obtain ⟨-, hp, -, hnone, -⟩ := rollback_rest hm
      refine ⟨hp.trans h.pager, (h.back m hm).2, ?_⟩
      intro m' hm'
      nomatch hnone.symm.trans hm'

/-- A batch whose base is still committed is picked up as it was put down,
    its savepoint apart. -/
theorem resumed_eq (h : b.base = b.pager.committed) : resumed b = b.releaseSavepoint := by
  have hresume : b.pager.resume b.suspend = .ok b.releaseSavepoint := by
    rw [Pager.resume, if_neg]
    · rfl
    · rw [not_not, ← h]
      rfl
  rw [resumed, hresume]

/-- **ONE CALL** keeps the balance. -/
theorem Action.balanced (a : Action) (h : Balanced p L₀ b) : Balanced p L₀ (a.run b) := by
  cases a with
  | allocate ty => exact allocate_balanced h ty
  | pageMut id f => exact pageMut_balanced h id f
  | keptAndPageMut id f => exact keptAndPageMut_balanced h id f
  | takeNodeSized id =>
      exact quiet_balanced h rfl rfl rfl rfl fun L hL =>
        hL.congr rfl rfl rfl hL.sorted fun _ => rfl
  | keepNodeSized id n size =>
      exact quiet_balanced h rfl rfl rfl rfl fun L hL =>
        hL.congr rfl rfl rfl hL.sorted fun _ => rfl
  | setDataRoot root =>
      exact quiet_balanced h rfl rfl rfl rfl fun L hL => hL.reroot root _ _ _ _
  | setCatalogRoot root =>
      exact quiet_balanced h rfl rfl rfl rfl fun L hL => hL.reroot _ root _ _ _
  | setCommitPage page =>
      exact quiet_balanced h rfl rfl rfl rfl fun L hL => hL.reroot _ _ page _ _
  | setRefsRoot root =>
      exact quiet_balanced h rfl rfl rfl rfl fun L hL => hL.reroot _ _ _ root _
  | setFreelist ids => exact setFreelist_balanced h ids
  | savepoint => exact mark_balanced h
  | releaseSavepoint => exact releaseSavepoint_balanced h
  | rollbackSavepoint => exact rollbackSavepoint_balanced h
  | suspendResume =>
      obtain ⟨L, hL⟩ := h.now
      show Balanced p L₀ (resumed b)
      rw [resumed_eq hL.committed]
      exact releaseSavepoint_balanced h

/-- **A RUN OF CALLS** keeps the balance. -/
theorem runActions_balanced (acts : List Action) (h : Balanced p L₀ b) :
    Balanced p L₀ (runActions acts b) := by
  induction acts generalizing b with
  | nil => exact h
  | cons a rest ih => exact ih (a.balanced h)

end Runs

end QuantySavepoint
