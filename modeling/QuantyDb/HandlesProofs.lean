import QuantyDb.PagerProofs

/-! # Several handles on one file

    Each handle remembers the meta it takes for the committed one and builds
    its batches on that.  Nothing tells a handle that another one committed;
    the only thing between a stale batch and the file is the slot that the
    batch is about to overwrite, which is read once before anything is
    written.

    That one read is enough because commits alternate between the slots: with
    `T` the highest id on storage, one slot holds `T` and the other `T - 1`,
    and a batch built on less than `T` finds one of them in its slot. -/

namespace QuantyHandles

open QuantyPage QuantyPager QuantyPagerInv List Batch Pager

/-- Storage that handles share, and what each takes for the committed meta. -/
structure World where
  storage : Storage
  handles : List Meta

/-- `meta::recover` on two slots that decode: only a higher id replaces. -/
def newest (st : Storage) : Option Meta :=
  match st.slotA, st.slotB with
  | some a, some b => if a.txid < b.txid then some b else some a
  | some a, none => some a
  | none, b => b

/-- A batch at the moment it commits: it reads the storage that all share. -/
def onStorage (st : Storage) (b : Batch) : Batch :=
  { b with pager := { b.pager with storage := st } }

/-- The commit of a batch on one of the handles, in one piece. -/
def World.commit (w : World) (handle : Nat) (b : Batch) (now : Nat) : Except Error Nat × World :=
  match (onStorage w.storage b).commit now with
  | .error e => (.error e, w)
  | .ok (txid, p) => (.ok txid, ⟨p.storage, w.handles.set handle p.committed⟩)

/-- **WORLDS THAT ARE REACHED** from a new file by opening handles and
    committing batches, with the ids that were acknowledged, newest first.  A
    batch is built on what its handle takes for committed, and is otherwise
    anything. -/
inductive Reached (ps created : Nat) : World → List Nat → Prop where
  | create : Reached ps created ⟨(initial ps created).storage, []⟩ []
  | opens {w : World} {acks : List Nat} {m : Meta} (h : Reached ps created w acks)
      (hm : newest w.storage = some m) :
      Reached ps created { w with handles := w.handles ++ [m] } acks
  | acked {w w' : World} {acks : List Nat} {handle now txid : Nat} {b : Batch}
      (h : Reached ps created w acks) (hb : w.handles[handle]? = some b.base)
      (hc : w.commit handle b now = (.ok txid, w')) : Reached ps created w' (txid :: acks)
  | refused {w w' : World} {acks : List Nat} {handle now : Nat} {b : Batch} {e : Error}
      (h : Reached ps created w acks) (hb : w.handles[handle]? = some b.base)
      (hc : w.commit handle b now = (.error e, w')) : Reached ps created w' acks

/-! ## What settling leaves alone -/

/-- Same pager, same base. -/
def Rooted (b b' : Batch) : Prop := b'.pager = b.pager ∧ b'.base = b.base

theorem Rooted.refl (b : Batch) : Rooted b b := ⟨rfl, rfl⟩

variable {b b' : Batch} {st : Storage} {T : Nat}

theorem Rooted.trans {b'' : Batch} (h : Rooted b b') (h' : Rooted b' b'') : Rooted b b'' :=
  ⟨h'.1.trans h.1, h'.2.trans h.2⟩

theorem rooted_record (id : PageId) (b : Batch) : Rooted b (b.record id) := by
  rw [record]
  split
  · exact Rooted.refl b
  · split
    · exact Rooted.refl b
    · exact ⟨rfl, rfl⟩

theorem rooted_refillPool (b : Batch) : Rooted b b.refillPool := by
  rw [refillPool]
  split
  · split
    · exact ⟨rfl, rfl⟩
    · split <;> exact ⟨rfl, rfl⟩
  · exact Rooted.refl b

theorem rooted_takePageId (b : Batch) : Rooted b b.takePageId.2 := by
  rw [takePageId]
  split
  · have h := rooted_refillPool b
    dsimp only
    split <;> exact h
  · exact ⟨rfl, rfl⟩

theorem rooted_allocate (ty : PageType) (b : Batch) : Rooted b (b.allocate ty).2 :=
  (rooted_takePageId b).trans (rooted_record _ _)

theorem rooted_chainPage (writable remaining : List PageId) (b : Batch) :
    Rooted b (b.chainPage writable remaining).2.2 := by
  rw [chainPage]
  split
  · exact rooted_record _ b
  · exact rooted_allocate _ b

theorem rooted_pageMut {id : PageId} {f : Page → Page} (h : pageMut id f b = .ok () b') :
    Rooted b b' := by
  have hr := rooted_record id b
  rw [pageMut] at h
  dsimp only at h
  split at h
  · cases h
    exact hr
  · nomatch h

theorem rooted_settleLoop {writable : List PageId} {fuel : Nat} {remaining : List PageId}
    {head head' : PageId} (h : settleLoop writable fuel remaining head b = .ok head' b') :
    Rooted b b' := by
  induction fuel generalizing remaining head b with
  | zero =>
      cases remaining with
      | nil =>
          cases h
          exact Rooted.refl _
      | cons r rest => nomatch h
  | succ fuel ih =>
      cases remaining with
      | nil =>
          cases h
          exact Rooted.refl _
      | cons r rest =>
          have hchain := rooted_chainPage writable (r :: rest) b
          change EStateM.bind (pageMut _ _) _ _ = _ at h
          rw [EStateM.bind] at h
          split at h
          · next hmut => exact hchain.trans ((rooted_pageMut hmut).trans (ih h))
          · nomatch h

theorem rooted_settleFreelist (h : settleFreelist b = .ok () b') : Rooted b b' := by
  change (if (!b.touchedFreelist && b.deferredFree.isEmpty && b.freelistOverride.isNone) = true
    then (pure () : BatchM Unit) else _) b = _ at h
  split at h
  · cases h
    exact Rooted.refl b
  · change EStateM.bind (settleLoop _ _ _ _) _ b.stopReuse = _ at h
    rw [EStateM.bind] at h
    split at h
    · next hloop =>
      cases h
      have hr := rooted_settleLoop hloop
      exact ⟨hr.1, hr.2⟩
    · nomatch h

theorem rooted_prepare (h : b.prepare = .ok b') : Rooted b b' := by
  rw [prepare] at h
  split at h
  · nomatch h
  · split at h
    · nomatch h
    · next hsettle =>
      split at h
      · cases h
        exact rooted_settleFreelist hsettle
      · nomatch h

/-! ## Commits alternate -/

/-- The highest id on storage is `T`: it stands in its own slot, and the one
    before it in the other. -/
structure Alternates (st : Storage) (T : Nat) : Prop where
  top : ∃ m, st.slot (T % 2) = some m ∧ m.txid = T
  below : ∃ m, st.slot ((T + 1) % 2) = some m ∧ (m.txid + 1 = T ∨ T = 0 ∧ m.txid = 0)

theorem Alternates.newest (h : Alternates st T) : ∃ m, newest st = some m ∧ m.txid = T := by
  obtain ⟨m, hm, hT⟩ := h.top
  obtain ⟨m', hm', hT'⟩ := h.below
  rcases Nat.mod_two_eq_zero_or_one T with hpar | hpar
  · have hother : (T + 1) % 2 = 1 := by omega
    have ha : st.slotA = some m := by rw [← hm, hpar]; rfl
    have hb : st.slotB = some m' := by rw [← hm', hother]; rfl
    refine ⟨m, ?_, hT⟩
    rw [QuantyHandles.newest, ha, hb]
    exact if_neg (by omega)
  · have hother : (T + 1) % 2 = 0 := by omega
    have hb : st.slotB = some m := by rw [← hm, hpar]; rfl
    have ha : st.slotA = some m' := by rw [← hm', hother]; rfl
    refine ⟨m, ?_, hT⟩
    rw [QuantyHandles.newest, ha, hb]
    exact if_pos (by omega)

/-- **THE SLOT TELLS**: a batch built on less than the highest id finds a
    higher one in its slot. -/
theorem Alternates.stale {t : Nat} (h : Alternates st T) (ht : t < T) :
    t < txidInSlot st ((t + 1) % 2) := by
  rw [txidInSlot]
  rcases Nat.even_or_odd' (T - t) with ⟨k, hk | hk⟩
  · obtain ⟨m, hm, hT⟩ := h.below
    have hslot : (t + 1) % 2 = (T + 1) % 2 := by omega
    rw [hslot, hm]
    show t < m.txid
    omega
  · obtain ⟨m, hm, hT⟩ := h.top
    have hslot : (t + 1) % 2 = T % 2 := by omega
    rw [hslot, hm]
    show t < m.txid
    omega

theorem slot_publish {now i : Nat} (hi : i < 2) : (b.publish now).storage.slot i
      = if i = (b.base.txid + 1) % 2 then some (b.newMeta now) else b.pager.storage.slot i := by
  show ((b.pager.storage.writePages b.sealedPages).writeMeta ((b.base.txid + 1) % 2)
    (b.newMeta now)).slot i = _
  rw [slot_writeMeta _ (Nat.mod_lt _ (by decide)) hi, slot_writePages]

/-- How a commit ends. -/
theorem commit_cases (st : Storage) (b : Batch) (now : Nat) :
    (b.base.txid < txidInSlot st ((b.base.txid + 1) % 2)
        ∧ (onStorage st b).commit now = .error (.writerRaced b.base.txid
            (txidInSlot st ((b.base.txid + 1) % 2))))
      ∨ txidInSlot st ((b.base.txid + 1) % 2) ≤ b.base.txid
        ∧ ((∃ e, (onStorage st b).commit now = .error e)
          ∨ ∃ b', Rooted (onStorage st b) b'
            ∧ (onStorage st b).commit now = .ok (b.base.txid + 1, b'.publish now)) := by
  by_cases hrace : b.base.txid < txidInSlot st ((b.base.txid + 1) % 2)
  · refine .inl ⟨hrace, ?_⟩
    have hp : (onStorage st b).prepare = .error (.writerRaced b.base.txid
        (txidInSlot st ((b.base.txid + 1) % 2))) := if_pos hrace
    rw [commit, hp]
  · refine .inr ⟨not_lt.mp hrace, ?_⟩
    cases hp : (onStorage st b).prepare with
    | error e =>
        refine .inl ⟨e, ?_⟩
        rw [commit, hp]
    | ok b' =>
        have hr := rooted_prepare hp
        refine .inr ⟨b', hr, ?_⟩
        rw [commit, hp]
        show Except.ok (b'.base.txid + 1, b'.publish now) = _
        rw [hr.2]
        rfl

/-- A commit on the highest id leaves the next one on top. -/
theorem Alternates.publish (h : Alternates st T) (hb : b.base.txid = T)
    (hr : Rooted (onStorage st b) b') (now : Nat) :
    Alternates (b'.publish now).storage (T + 1) := by
  have hbase : b'.base.txid = T := by rw [hr.2]; exact hb
  have hst : b'.pager.storage = st := by rw [hr.1]; rfl
  obtain ⟨m, hm, hT⟩ := h.top
  constructor
  · refine ⟨b'.newMeta now, ?_, by rw [← hbase]; rfl⟩
    rw [slot_publish (Nat.mod_lt _ (by decide)), hbase, if_pos rfl]
  · have hslot : (T + 1 + 1) % 2 = T % 2 := by omega
    refine ⟨m, ?_, .inl (by omega)⟩
    rw [slot_publish (Nat.mod_lt _ (by decide)), hbase, hslot, if_neg (by omega), hst, hm]

/-- **WHAT EVERY REACHED WORLD KEEPS**: commits alternate, no handle is ahead
    of storage, and acknowledged ids only grow, up to the highest. -/
structure Kept (w : World) (acks : List Nat) (T : Nat) : Prop where
  alternates : Alternates w.storage T
  behind : ∀ m ∈ w.handles, m.txid ≤ T
  grow : acks.Pairwise (fun newer older => older < newer)
  upto : ∀ a ∈ acks, a ≤ T

theorem Reached.kept {ps created : Nat} {w : World} {acks : List Nat}
    (h : Reached ps created w acks) : ∃ T, Kept w acks T := by
  induction h with
  | create =>
      refine ⟨0, ⟨⟨_, rfl, rfl⟩, ⟨_, rfl, .inr ⟨rfl, rfl⟩⟩⟩, nofun,
        List.Pairwise.nil, nofun⟩
  | opens _ hm ih =>
      obtain ⟨T, hk⟩ := ih
      refine ⟨T, hk.alternates, ?_, hk.grow, hk.upto⟩
      obtain ⟨m', hm', hT⟩ := hk.alternates.newest
      obtain rfl := Option.some.inj (hm.symm.trans hm')
      intro m hmem
      rcases mem_append.mp hmem with hmem | hmem
      · exact hk.behind m hmem
      · rw [mem_singleton.mp hmem, hT]
  | @acked w w' acks handle now txid b _ hb hc ih =>
      obtain ⟨T, hk⟩ := ih
      have hle := hk.behind _ (mem_of_getElem? hb)
      rw [World.commit] at hc
      rcases commit_cases w.storage b now with ⟨-, he⟩ | ⟨hslot, ⟨e, he⟩ | ⟨b', hr, hok⟩⟩
      · rw [he] at hc
        nomatch hc
      · rw [he] at hc
        nomatch hc
      · rw [hok] at hc
        cases hc
        have hT : b.base.txid = T := by
          refine le_antisymm hle (not_lt.mp fun hlt => ?_)
          exact absurd (hk.alternates.stale hlt) (not_lt.mpr hslot)
        refine ⟨T + 1, hk.alternates.publish hT hr now, ?_, ?_, ?_⟩
        · intro m hmem
          rcases mem_or_eq_of_mem_set hmem with hmem | rfl
          · exact (hk.behind m hmem).trans (Nat.le_succ T)
          · show b'.base.txid + 1 ≤ T + 1
            rw [hr.2, ← hT]
            exact le_rfl
        · exact pairwise_cons.mpr ⟨fun a ha => by have := hk.upto a ha; omega, hk.grow⟩
        · intro a ha
          rcases mem_cons.mp ha with rfl | ha
          · omega
          · exact (hk.upto a ha).trans (Nat.le_succ T)
  | @refused w w' acks handle now b e _ hb hc ih =>
      obtain ⟨T, hk⟩ := ih
      refine ⟨T, ?_⟩
      rw [World.commit] at hc
      split at hc
      · cases hc
        exact hk
      · nomatch hc

/-- **NO HANDLE OVERWRITES ANOTHER'S COMMIT**: in every world that is reached, a
    commit is refused as raced and changes nothing, or is built on the highest
    id on storage.  A commit that fails otherwise changes nothing either.  One
    that is acknowledged puts the next id on top, replaces only a meta that is
    not newer than its own base, and leaves the meta of its base in place; so
    acknowledged ids strictly increase. -/
theorem handles_never_overwrite {ps created : Nat} {w : World} {acks : List Nat}
    (h : Reached ps created w acks) :
    acks.Pairwise (fun newer older => older < newer)
      ∧ ∀ (handle : Nat) (b : Batch) (now : Nat), w.handles[handle]? = some b.base →
        ((∃ found, w.commit handle b now = (.error (.writerRaced b.base.txid found), w))
            ∨ ∃ m, newest w.storage = some m ∧ b.base.txid = m.txid)
          ∧ (∀ e w', w.commit handle b now = (.error e, w') → w'.storage = w.storage)
          ∧ ∀ txid w', w.commit handle b now = (.ok txid, w') →
              txid = b.base.txid + 1
                ∧ (∃ m, newest w'.storage = some m ∧ m.txid = txid)
                ∧ (∀ a ∈ acks, a < txid)
                ∧ (∀ old, w.storage.slot (txid % 2) = some old → old.txid ≤ b.base.txid)
                ∧ w'.storage.slot (b.base.txid % 2) = w.storage.slot (b.base.txid % 2) := by
  obtain ⟨T, hk⟩ := h.kept
  refine ⟨hk.grow, fun handle b now hb => ?_⟩
  have hle := hk.behind _ (mem_of_getElem? hb)
  obtain ⟨m, hm, hT⟩ := hk.alternates.newest
  refine ⟨?_, ?_, ?_⟩
  · rcases Nat.lt_or_ge b.base.txid T with hlt | hge
    · left
      rcases commit_cases w.storage b now with ⟨-, he⟩ | ⟨hslot, -⟩
      · refine ⟨txidInSlot w.storage ((b.base.txid + 1) % 2), ?_⟩
        rw [World.commit, he]
      · exact absurd (hk.alternates.stale hlt) (not_lt.mpr hslot)
    · exact .inr ⟨m, hm, by omega⟩
  · intro e w' hc
    rw [World.commit] at hc
    split at hc
    · cases hc
      rfl
    · nomatch hc
  · intro txid w' hc
    rw [World.commit] at hc
    rcases commit_cases w.storage b now with ⟨-, he⟩ | ⟨hslot, ⟨e, he⟩ | ⟨b', hr, hok⟩⟩
    · rw [he] at hc
      nomatch hc
    · rw [he] at hc
      nomatch hc
    · rw [hok] at hc
      cases hc
      have hbT : b.base.txid = T := by
        refine le_antisymm hle (not_lt.mp fun hlt => ?_)
        exact absurd (hk.alternates.stale hlt) (not_lt.mpr hslot)
      have halt := (hk.alternates.publish hbT hr now).newest
      refine ⟨rfl, by rw [hbT]; exact halt, ?_, ?_, ?_⟩
      · intro a ha
        have := hk.upto a ha
        omega
      · intro old hold
        rw [txidInSlot, hold] at hslot
        exact hslot
      · show (b'.publish now).storage.slot _ = _
        have hbase : b'.base.txid = b.base.txid := by rw [hr.2]; rfl
        rw [slot_publish (Nat.mod_lt _ (by decide)), hbase, if_neg (by omega), hr.1]
        rfl

/-- A new file that two handles have open. -/
def twoHandles : World :=
  let p := initial 512 0
  ⟨p.storage, [p.committed, p.committed]⟩

/-- The first of them has committed. -/
def firstCommitted : World := (twoHandles.commit 0 (initial 512 0).begin 0).2

theorem reached_firstCommitted : Reached 512 0 firstCommitted [1] :=
  .acked (.opens (.opens .create rfl) rfl) (b := (initial 512 0).begin) rfl
    (show twoHandles.commit 0 _ 0 = (.ok 1, firstCommitted) from rfl)

/-- The batch that the second had begun before is refused. -/
theorem handles_never_overwrite_second :
    ∃ found, firstCommitted.commit 1 (initial 512 0).begin 0
      = (.error (.writerRaced 0 found), firstCommitted) := by
  have h := (handles_never_overwrite reached_firstCommitted).2 1 (initial 512 0).begin 0 rfl
  rcases h.1 with hraced | ⟨m, hm, htxid⟩
  · exact hraced
  · have hone : (newest firstCommitted.storage).map Meta.txid = some 1 := rfl
    rw [hm] at hone
    exact absurd (Option.some.inj hone) (by rw [← htxid]; decide)

end QuantyHandles
