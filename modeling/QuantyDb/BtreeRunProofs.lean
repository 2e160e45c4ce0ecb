import QuantyDb.BtreeMapProofs

/-! # Runs of calls on a tree

    A sequence of `put`, `put_unique` and `remove` calls in one batch, each on
    the root that the one before returned, against the same sequence of
    operations on a map. -/

namespace QuantyBtreeRun

open QuantyKey QuantyPage QuantyPager QuantyPagerInv QuantyBtree QuantyTree QuantyTreeMap Function
open QuantyTreeFits QuantyBtreeSim QuantyOverflow QuantyBtreeMap CowHeap

/-- A value as a caller has it. -/
abbrev Slice := { v : Bytes // v.length ≤ ISIZE_MAX }

/-- One call of the public interface. -/
inductive Call
  | put (key : Key) (value : Slice)
  | putUnique (key : Key) (value : Slice)
  | remove (key : Key)
  deriving DecidableEq, Repr

/-- The call on a root: the new root, and what it reports. -/
def Call.run (root : PageId) : Call → BatchM (PageId × Bool)
  | .put key value => thenTrue (QuantyBtree.put root key value)
  | .putUnique key value => QuantyBtree.putUnique root key value
  | .remove key => QuantyBtree.remove root key

def runCalls : List Call → PageId → BatchM (PageId × List Bool)
  | [], root => pure (root, [])
  | c :: cs, root => do
      let (root, answer) ← c.run root
      let (root, answers) ← runCalls cs root
      return (root, answer :: answers)

/-- What the call means for a map: insert or replace, insert if absent, delete. -/
def Call.meaning (m : Key → Option Bytes) : Call → (Key → Option Bytes) × Bool
  | .put key value => (update m key (some value.1), true)
  | .putUnique key value =>
      if (m key).isSome then (m, false) else (update m key (some value.1), true)
  | .remove key => (update m key none, (m key).isSome)

def meanings : List Call → (Key → Option Bytes) → (Key → Option Bytes) × List Bool
  | [], m => (m, [])
  | c :: cs, m =>
      ((meanings cs (c.meaning m).1).1, (c.meaning m).2 :: (meanings cs (c.meaning m).1).2)

section Calls

variable {b b' : Batch} {L : FreePages} {o : Option Located}
  {V : List (PageId × Page)} {m : Key → Option Bytes} {key : Key} {value : Bytes}

/-! ## Keys that are refused -/

theorem checkKey_error {ps : Nat} (hk : ¬ (0 < key.length ∧ key.length ≤ maxKeyLen ps)) :
    ∃ e, checkKey ps key b = .error e b := by
  unfold checkKey
  by_cases h0 : key.length = 0
  · rw [if_pos h0]
    exact ⟨_, rfl⟩
  · rw [if_neg h0, if_pos (not_le.mp fun h => hk ⟨Nat.pos_of_ne_zero h0, h⟩)]
    exact ⟨_, rfl⟩

theorem put_error (root : PageId) (value : Bytes)
    (hk : ¬ (0 < key.length ∧ key.length ≤ maxKeyLen b.pageSize)) :
    ∃ e, put root key value b = .error e b := by
  obtain ⟨e, he⟩ := checkKey_error (b := b) hk
  refine ⟨e, ?_⟩
  unfold put
  rw [get_bind, bind_error he]

theorem putUnique_error (value : Bytes) (hs : Sound b L) (hh : Holds (view b L) (cellsOf o ++ V))
    (hm : Shows b.pageSize o V m)
    (hk : ¬ (0 < key.length ∧ key.length ≤ maxKeyLen b.pageSize)) :
    ∃ e, putUnique (rootOf o) key value b = .error e b := by
  unfold putUnique
  rw [get_bind]
  by_cases hbig : inlineMax b.pageSize < value.length
  · obtain ⟨e, he⟩ := put_error (rootOf o) value hk
    refine ⟨e, ?_⟩
    rw [if_pos hbig, reader_get (Holds.covers hs hh) hm, hm.none_of_illegal hk]
    show (put (rootOf o) key value >>= fun x => pure (x, true)) b = _
    rw [bind_error he]
  · obtain ⟨e, he⟩ := checkKey_error (b := b) hk
    exact ⟨e, by rw [if_neg hbig, bind_error he]⟩

theorem remove_long (root : PageId) (hk : ¬ key.length ≤ maxKeyLen b.pageSize) :
    remove root key b = .ok (root, false) b := by
  unfold remove
  rw [get_bind, if_pos (.inr (not_le.mp hk))]
  rfl

/-! ## One call -/

/-- What is left of a tree and its map after a call that returned. -/
def Refined (b : Batch) (L : FreePages) (C : List (PageId × Page))
    (b' : Batch) (root : PageId) (m : Key → Option Bytes) : Prop :=
  ∃ o V L', root = rootOf o ∧ Work b L C b' L' (cellsOf o ++ V) ∧ Shows b.pageSize o V m

theorem inOrder_of_shows (hm : Shows b.pageSize o V m) :
    ∀ t, o = some t → t.shape.InOrder := fun t ht => inOrder_of_ordered (hm.ordered t ht)

/-- An insertion that returned left a tree with the entry in it. -/
theorem refined_of_plantPost (hm : Shows b.pageSize o V m) {C : List (PageId × Page)}
    (hk : 0 < key.length ∧ key.length ≤ maxKeyLen b.pageSize) {v : ValueRef}
    {W : List (PageId × Page)} (hat : ValueAt W b.pageSize v value)
    (hsize : value.length ≤ ISIZE_MAX) {call : BatchM PageId}
    (hpost : PlantPost key b L C (W ++ V) (call b)
      (insertTop b.pageSize key v (o.map Located.shape)))
    {root : PageId} {answer : Bool} (hrun : thenTrue call b = .ok (root, answer) b') :
    Refined b L C b' root (update m key (some value)) ∧ answer = true := by
  unfold thenTrue at hrun
  cases hins : insertTop b.pageSize key v (o.map Located.shape) with
  | none =>
      rw [hins] at hpost
      obtain ⟨what, b₁, hcall⟩ := hpost
      rw [bind_error hcall] at hrun
      nomatch hrun
  | some s =>
      rw [hins] at hpost
      obtain ⟨t, b₁, L₁, hcall, rfl, hw, -⟩ := hpost
      rw [bind_ok hcall] at hrun
      cases hrun
      exact ⟨⟨some t, W ++ V, L₁, rfl, hw, shows_insert hm hk hat hsize hins⟩, rfl⟩

/-- **ONE CALL** that returns does to the map what it means. -/
theorem call_refined (hps : 512 ≤ b.pageSize) (hs : Sound b L)
    (hh : Holds (view b L) (cellsOf o ++ V)) (hm : Shows b.pageSize o V m) (c : Call)
    {root : PageId} {answer : Bool} (hrun : c.run (rootOf o) b = .ok (root, answer) b') :
    Refined b L (cellsOf o ++ V) b' root (c.meaning m).1 ∧ answer = (c.meaning m).2 := by
  have ho := inOrder_of_shows hm
  cases c with
  | put key value =>
      by_cases hk : 0 < key.length ∧ key.length ≤ maxKeyLen b.pageSize
      · obtain ⟨v, W, -, hat, hpost⟩ := put_post hs hh ho hm.fits hps hk.1 hk.2 value.1
        exact refined_of_plantPost hm hk hat value.2 hpost hrun
      · obtain ⟨e, he⟩ := put_error (rootOf o) value.1 hk
        nomatch (bind_error he).symm.trans hrun
  | putUnique key value =>
      by_cases hk : 0 < key.length ∧ key.length ≤ maxKeyLen b.pageSize
      · cases hfind : topFind key (o.map Located.shape) with
        | none =>
            have hnone : m key = none := hm.absent key ((hm.topFind_eq key).symm.trans hfind)
            obtain ⟨v, W, call, -, hat, hcall, hpost⟩ :=
              putUnique_absent hs hh ho hm.fits hps hk.1 hk.2 value.1 hfind
            rw [Call.meaning, hnone]
            exact refined_of_plantPost hm hk hat value.2 hpost (hcall.symm.trans hrun)
        | some w =>
            obtain ⟨bytes, hbytes, hat⟩ := hm.present key w ((hm.topFind_eq key).symm.trans hfind)
            rw [Call.meaning, hbytes]
            rcases putUnique_found hs hh ho hm.fits hk.1 hk.2 value.1 hfind with
              ⟨b₁, L₁, hcall, hw⟩ | ⟨e, -, hread, -⟩
            · cases hcall.symm.trans hrun
              exact ⟨⟨o, V, L₁, rfl, hw, hm⟩, rfl⟩
            · have hok := readValue_at (r := batchReader b)
                (fun c hc => (Holds.covers hs hh c (List.mem_append_right _ hc)).1) hat
                (hm.sized key bytes hbytes)
              nomatch hread.symm.trans hok
      · obtain ⟨e, he⟩ := putUnique_error value.1 hs hh hm hk
        nomatch he.symm.trans hrun
  | remove key =>
      by_cases hk : key.length ≤ maxKeyLen b.pageSize
      · have hpost := remove_post hs hh hm.ordered hm.fits hk
        cases hdel : deleteTop b.pageSize key (o.map Located.shape) with
        | none =>
            rw [hdel] at hpost
            obtain ⟨page, b₁, hcall⟩ := hpost
            nomatch hcall.symm.trans hrun
        | some x =>
            rw [hdel] at hpost
            obtain ⟨s, found⟩ := x
            obtain ⟨o', b₁, L₁, hcall, rfl, hw⟩ := hpost
            cases hcall.symm.trans hrun
            obtain ⟨hshows, hfound⟩ := shows_delete hm hdel
            exact ⟨⟨o', V, L₁, rfl, hw, hshows⟩, hfound⟩
      · -- a key too long to be stored is not looked for
        have hnone : m key = none := hm.none_of_illegal fun h => hk h.2
        cases (remove_long (rootOf o) hk).symm.trans hrun
        rw [Call.meaning, hnone, ← hnone, update_eq_self, hnone]
        exact ⟨⟨o, V, L, rfl, Work.refl hs hh, hm⟩, rfl⟩

end Calls

/-! ## Whole runs -/

/-- **A RUN OF CALLS** leaves a tree that shows what the calls mean. -/
theorem runCalls_refined (calls : List Call) : ∀ {b b' : Batch}
    {L : FreePages} {o : Option Located} {V : List (PageId × Page)}
    {m : Key → Option Bytes} {root : PageId} {answers : List Bool}, 512 ≤ b.pageSize →
      Sound b L → Holds (view b L) (cellsOf o ++ V) → Shows b.pageSize o V m →
      runCalls calls (rootOf o) b = .ok (root, answers) b' →
      Refined b L (cellsOf o ++ V) b' root (meanings calls m).1
        ∧ answers = (meanings calls m).2 := by
  induction calls with
  | nil =>
      intro b b' L o V m root answers hps hs hh hm hrun
      cases hrun
      exact ⟨⟨o, V, L, rfl, Work.refl hs hh, hm⟩, rfl⟩
  | cons c cs ih =>
      intro b b' L o V m root answers hps hs hh hm hrun
      rw [runCalls] at hrun
      cases hc : c.run (rootOf o) b with
      | error e b₁ => rw [bind_error hc] at hrun; nomatch hrun
      | ok x b₁ =>
          obtain ⟨root₁, answer⟩ := x
          obtain ⟨⟨o₁, V₁, L₁, rfl, hw, hm₁⟩, rfl⟩ := call_refined hps hs hh hm c hc
          rw [bind_ok hc] at hrun
          simp only at hrun
          cases hcs : runCalls cs (rootOf o₁) b₁ with
          | error e b₂ => rw [bind_error hcs] at hrun; nomatch hrun
          | ok y b₂ =>
              obtain ⟨root₂, answers₂⟩ := y
              rw [bind_ok hcs] at hrun
              cases hrun
              have hps₁ : b₁.pageSize = b.pageSize := hw.stays.pageSize
              obtain ⟨⟨o₂, V₂, L₂, rfl, hw₂, hm₂⟩, rfl⟩ :=
                ih (hps₁ ▸ hps) hw.sound hw.holds (hps₁ ▸ hm₁) hcs
              exact ⟨⟨o₂, V₂, L₂, rfl, hw.trans hw₂, hps₁ ▸ hm₂⟩, rfl⟩

/-- `put_unique` that reports false hands back the root it was given. -/
theorem putUnique_false {b b' : Batch} {root root' : PageId} {key : Key} {value : Bytes}
    (h : putUnique root key value b = .ok (root', false) b') : root' = root := by
  have htrue : ∀ {m : BatchM PageId} {b b' : Batch},
      thenTrue m b = .ok (root', false) b' → root' = root := by
    intro m b b' hm
    unfold thenTrue at hm
    cases hc : m b with
    | error e b₁ => rw [bind_error hc] at hm; nomatch hm
    | ok x b₁ => rw [bind_ok hc] at hm; nomatch hm
  unfold putUnique at h
  rw [get_bind] at h
  split at h
  · cases hget : (batchReader b).get root key with
    | error e => rw [hget] at h; nomatch h
    | ok x =>
        rw [hget] at h
        cases x with
        | some v => cases h; rfl
        | none => exact htrue (m := put root key value) h
  · cases hk : checkKey b.pageSize key b with
    | error e b₁ => rw [bind_error hk] at h; nomatch h
    | ok _ b₁ =>
        rw [bind_ok hk] at h
        split at h
        · exact htrue (m := put root key value) h
        · cases hi : insertRec key (.inline value) true b.nextPage root b₁ with
          | error e b₂ => rw [bind_error hi] at h; nomatch h
          | ok r b₂ =>
              rw [bind_ok hi] at h
              cases r with
              | duplicate => cases h; rfl
              | done p => exact htrue (m := newRoot (.done p)) h
              | split l sep r => exact htrue (m := newRoot (.split l sep r)) h

/-! ## Reading a tree off its pages -/

section Spelling

variable {b : Batch} {L : FreePages} {root page : PageId} {o : Option Located}
  {fuel : Nat} {t : Located}

/-- The tree that the pages of a batch spell from a root on. -/
def Spells (b : Batch) (root : PageId) (o : Option Located) : Prop :=
  rootOf o = root ∧ ∀ c ∈ cellsOf o, b.pageBytes c.1 = .ok c.2

theorem Spells.unique {o' : Option Located} (hs : Sound b L) (h : Spells b root o)
    (h' : Spells b root o') : o = o' := by
  -- a page that reads is not the root of the empty tree
  have hne : ∀ {t : Located}, Spells b root (some t) → root ≠ NIL_PAGE := fun ht =>
    ht.1 ▸ ne_nil_of_pageBytes hs (ht.2 _ (Located.mem_pages _))
  cases o with
  | none =>
      cases o' with
      | none => rfl
      | some t' => exact absurd h.1.symm (hne h')
  | some t =>
      cases o' with
      | none => exact absurd h'.1.symm (hne h)
      | some t' =>
          refine congrArg some (located_unique (fun id => (b.pageBytes id).toOption) t ?_ ?_
            (h.1.trans h'.1.symm))
          · intro c hc; rw [h.2 c hc]; rfl
          · intro c hc; rw [h'.2 c hc]; rfl

/-- The tree below a page. -/
def readTree (b : Batch) : Nat → PageId → Option Located
  | 0, _ => none
  | fuel + 1, page =>
      match b.pageBytes page with
      | .ok (.node (.leaf es)) => some (.leaf page es)
      | .ok (.node (.branch f es)) => do
          let first ← readTree b fuel f
          let rest ← es.mapM fun e => (readTree b fuel e.2).map (Prod.mk e.1)
          return .branch page first rest
      | _ => none

/-- The tree below a root, if there is one to be read. -/
def readRoot (b : Batch) (root : PageId) : Option (Option Located) :=
  if root = NIL_PAGE then some none else (readTree b b.nextPage root).map some

/-- The children of a branch are read from the pages that its separators name. -/
theorem readSlots_spells {es : List (Key × PageId)} {rest : List (Key × Located)}
    (hread : ∀ {page t}, readTree b fuel page = some t →
      t.page = page ∧ ∀ c ∈ t.pages, b.pageBytes c.1 = .ok c.2)
    (h : es.mapM (fun e => (readTree b fuel e.2).map (Prod.mk e.1)) = some rest) :
    rest.map (Prod.map id Located.page) = es
      ∧ ∀ c ∈ Located.pages.pagesOf rest, b.pageBytes c.1 = .ok c.2 := by
  induction es generalizing rest with
  | nil =>
      obtain rfl := Option.some.inj h
      exact ⟨rfl, nofun⟩
  | cons e es ih =>
      rw [List.mapM_cons] at h
      obtain ⟨x, hx, h⟩ := Option.bind_eq_some_iff.mp h
      obtain ⟨xs, hxs, h⟩ := Option.bind_eq_some_iff.mp h
      obtain rfl := Option.some.inj h
      obtain ⟨u, hu, rfl⟩ := Option.map_eq_some_iff.mp hx
      obtain ⟨hpage, hpages⟩ := hread hu
      obtain ⟨hmap, hall⟩ := ih hxs
      refine ⟨?_, fun c hc => (List.mem_append.mp hc).elim (hpages c) (hall c)⟩
      rw [List.map_cons, hmap]
      exact congrArg (· :: es) (Prod.ext rfl hpage)

theorem readTree_spells (h : readTree b fuel page = some t) :
    t.page = page ∧ ∀ c ∈ t.pages, b.pageBytes c.1 = .ok c.2 := by
  induction fuel generalizing page t with
  | zero => cases h
  | succ fuel ih =>
      rw [readTree] at h
      split at h
      · next es hread =>
        obtain rfl := Option.some.inj h
        exact ⟨rfl, fun c hc => (List.mem_singleton.mp hc) ▸ hread⟩
      · next f es hread =>
        obtain ⟨first, hfirst, h⟩ := Option.bind_eq_some_iff.mp h
        obtain ⟨rest, hrest, h⟩ := Option.bind_eq_some_iff.mp h
        obtain rfl := Option.some.inj h
        obtain ⟨rfl, hpages⟩ := ih hfirst
        obtain ⟨hmap, hslots⟩ := readSlots_spells ih hrest
        refine ⟨rfl, fun c hc => ?_⟩
        rw [Located.pages] at hc
        rcases List.mem_cons.mp hc with rfl | hc
        · rw [hmap]
          exact hread
        · exact (List.mem_append.mp hc).elim (hpages c) (hslots c)
      · cases h

theorem spells_of_readRoot (h : readRoot b root = some o) : Spells b root o := by
  rw [readRoot] at h
  split at h
  · next hnil =>
    obtain rfl := Option.some.inj h
    exact ⟨hnil.symm, nofun⟩
  · obtain ⟨t, ht, rfl⟩ := Option.map_eq_some_iff.mp h
    exact readTree_spells ht

end Spelling

/-- **THE B-TREE REFINES A MAP**: calls that return answer as the operations on
    the map do, and the root they end at reads as the map they end at, key by
    key.  A `put_unique` that reports false hands back the root it was given. -/
theorem btree_refines_map {b b' : Batch} {L : FreePages} {o : Option Located}
    {V : List (PageId × Page)} {m : Key → Option Bytes} (calls : List Call) {root : PageId}
    {answers : List Bool} (hps : validPageSize b.pageSize = true) (hs : Sound b L)
    (hh : Holds (view b L) (cellsOf o ++ V)) (hm : Shows b.pageSize o V m)
    (hrun : runCalls calls (rootOf o) b = .ok (root, answers) b') :
    answers = (meanings calls m).2
      ∧ (∀ key, (batchReader b').get root key = .ok ((meanings calls m).1 key))
      ∧ ∀ key value root' b'', putUnique root key value b' = .ok (root', false) b'' →
          root' = root := by
  obtain ⟨⟨o', V', L', rfl, hw, hm'⟩, hans⟩ :=
    runCalls_refined calls (le_of_validPageSize hps).1 hs hh hm hrun
  refine ⟨hans, fun key => ?_, fun key value root' b'' h => putUnique_false h⟩
  have hps' : (batchReader b').pageSize = b.pageSize := hw.stays.pageSize
  exact reader_get (Holds.covers hw.sound hw.holds) (hps' ▸ hm') key

theorem length_byte (b : UInt8) : [b].length ≤ ISIZE_MAX := by
  show 1 ≤ ISIZE_MAX
  decide

/-- A value of one byte. -/
def byte (b : UInt8) : Slice := ⟨[b], length_byte b⟩

/-- A run in a new file: a key is put, put again as unique, another put, and
    the first removed. -/
theorem btree_refines_map_initial :
    ∃ root b', runCalls [.put [1] (byte 7), .putUnique [1] (byte 8), .put [2] (byte 9), .remove [1]]
        NIL_PAGE (Pager.initial 512 0).begin = .ok (root, [true, false, true, true]) b'
      ∧ (batchReader b').get root [1] = .ok none
      ∧ (batchReader b').get root [2] = .ok (some [9]) := by
  refine ⟨_, _, rfl, ?_⟩
  have h := btree_refines_map (b := (Pager.initial 512 0).begin) (o := none) (V := [])
    [.put [1] (byte 7), .putUnique [1] (byte 8), .put [2] (byte 9), .remove [1]] (by decide)
    (sound_begin (freeListSound_initial 512 0)) (Holds.nil _) (shows_nil 512 []) rfl
  exact ⟨h.2.1 [1], h.2.1 [2]⟩

end QuantyBtreeRun
