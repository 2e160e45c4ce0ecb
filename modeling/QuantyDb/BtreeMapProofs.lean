import QuantyDb.OverflowProofs

/-! # The B-tree is a map

    The public calls on a tree, from the root page that goes in to the one
    that comes out.  `Shows` ties a located tree, or the empty one, to the map
    that a reader sees in it; `put`, `put_unique` and `remove` change the pages
    as they change the map, and a run of calls is the run of the same
    operations on the map. -/

namespace QuantyBtreeMap

open QuantyKey QuantyPage QuantyPager QuantyPagerInv QuantyBtree QuantyTree QuantyTreeMap List
open Function
open QuantyTreeFits QuantyBtreeSim QuantyInsertSim QuantyDeleteSim QuantyOverflow CowHeap Located

/-! ## Descents are short

    A page settles the tree below it, so a page that came again on the way down
    would be below itself.  A way down has no more pages than there are ids. -/

variable {t : Located} {C V : List (PageId × Page)} {r : Reader} {key : Key} {ps : Nat}
  {o : Option Located} {m : Key → Option Bytes} {n : Nat} {s : Option Tree} {i : Inserted}
  {v : ValueRef} {found : Bool}

section Paths

variable (read : PageId → Option Page)

/-- Pages spell at most one tree from a page on. -/
theorem located_unique (t : Located) : ∀ {t' : Located},
    (∀ c ∈ t.pages, read c.1 = some c.2) → (∀ c ∈ t'.pages, read c.1 = some c.2) →
      t.page = t'.page → t = t' := by
  induction t using Located.induct with
  | hleaf p es =>
      intro t' h h' hp
      have hnode := (h _ (mem_pages _)).symm.trans (hp ▸ h' _ (mem_pages t'))
      cases t' with
      | leaf p' es' => cases hnode; exact congrArg (leaf · es) hp
      | branch p' f' es' => cases hnode
  | hbranch p f es ihf ihes =>
      intro t' h h' hp
      have hnode := (h _ (mem_pages _)).symm.trans (hp ▸ h' _ (mem_pages t'))
      cases t' with
      | leaf p' es' => cases hnode
      | branch p' f' es' =>
          obtain rfl : p = p' := hp
          have hsame : (branch p f es).node = (branch p f' es').node :=
            Page.node.inj (Option.some.inj hnode)
          rw [node, node] at hsame
          obtain ⟨hf, hes⟩ := Node.branch.inj hsame
          rw [pages_branch] at h h'
          have hslot : ∀ {g : Located} {gs : List (Key × Located)} {x : Located},
              (x = g ∨ ∃ e ∈ gs, e.2 = x) → ∀ c ∈ x.pages,
                c ∈ slotPages (Fan.slots g gs) := by
            rintro g gs x hx c hc
            refine mem_flatMap.mpr ?_
            rcases hx with rfl | ⟨e, he, rfl⟩
            · exact ⟨(none, x), (.head _) .., hc⟩
            · exact ⟨(some e.1, e.2), mem_cons_of_mem _ (mem_map_of_mem he), hc⟩
          obtain rfl : f = f' := ihf (fun c hc => h c (.tail _ (hslot (.inl rfl) c hc)))
            (fun c hc => h' c (.tail _ (hslot (.inl rfl) c hc))) hf
          congr 1
          refine ext_getElem? fun i => ?_
          have hi := congrArg (fun l => l[i]?) hes
          simp only [getElem?_map] at hi
          cases he : es[i]? with
          | none => rw [he] at hi; exact (Option.map_eq_none_iff.mp hi.symm).symm
          | some e =>
              cases he' : es'[i]? with
              | none => rw [he, he'] at hi; cases hi
              | some e' =>
                  rw [he, he'] at hi
                  obtain ⟨hk, hpage⟩ := Prod.mk.inj (Option.some.inj hi)
                  have hm := mem_of_getElem? he
                  have hm' := mem_of_getElem? he'
                  have ht := ihes e hm
                    (fun c hc => h c (.tail _ (hslot (.inr ⟨e, hm, rfl⟩) c hc)))
                    (fun c hc => h' c (.tail _ (hslot (.inr ⟨e', hm', rfl⟩) c hc)))
                    hpage
                  exact congrArg some (Prod.ext hk ht)

/-- The pages of a longest way down: none comes twice. -/
theorem exists_spine (t : Located) (h : ∀ c ∈ t.pages, read c.1 = some c.2) :
    ∃ l : List PageId, l.Nodup ∧ l.length = t.height ∧ ∀ x ∈ l, ∃ t' : Located,
      t'.page = x ∧ t'.height ≤ t.height ∧ ∀ c ∈ t'.pages, c ∈ t.pages := by
  induction t using Located.induct with
  | hleaf p es =>
      refine ⟨[p], nodup_singleton p, by rw [height_leaf]; rfl, ?_⟩
      intro x hx
      obtain rfl := mem_singleton.mp hx
      exact ⟨_, rfl, le_rfl, fun _ hc => hc⟩
  | hbranch p f es ihf ihes =>
      obtain ⟨-, s, hs, hheight⟩ := height_slots p f es
      have hsub : ∀ c ∈ s.2.pages, c ∈ (branch p f es).pages := fun c hc => by
        rw [pages_branch]
        exact .tail _ (mem_flatMap.mpr ⟨s, hs, hc⟩)
      obtain ⟨l, hnodup, hlen, hl⟩ : ∃ l : List PageId, l.Nodup ∧ l.length = s.2.height
          ∧ ∀ x ∈ l, ∃ t' : Located, t'.page = x ∧ t'.height ≤ s.2.height
            ∧ ∀ c ∈ t'.pages, c ∈ s.2.pages := by
        rcases mem_cons.mp hs with rfl | hs
        · exact ihf fun c hc => h c (hsub c hc)
        · obtain ⟨e, he, rfl⟩ := mem_map.mp hs
          exact ihes e he fun c hc => h c (hsub c hc)
      refine ⟨p :: l, nodup_cons.mpr ⟨fun hmem => ?_, hnodup⟩, ?_, ?_⟩
      · -- the page again, further down: the same tree, and lower
        obtain ⟨t', hp, hle, hsub'⟩ := hl p hmem
        obtain rfl := located_unique read t' (fun c hc => h c (hsub c (hsub' c hc))) h hp
        omega
      · rw [length_cons, hlen, hheight]
      · intro x hx
        rcases mem_cons.mp hx with rfl | hx
        · exact ⟨_, rfl, le_rfl, fun _ hc => hc⟩
        · obtain ⟨t', hp, hle, hsub'⟩ := hl x hx
          exact ⟨t', hp, by omega, fun c hc => hsub c (hsub' c hc)⟩

/-- **A TREE IS NO HIGHER THAN THE FILE IS LONG**. -/
theorem height_le (h : ∀ c ∈ t.pages, read c.1 = some c.2) (hn : ∀ c ∈ t.pages, c.1 < n) :
    t.height ≤ n := by
  obtain ⟨l, hnodup, hlen, hl⟩ := exists_spine read t h
  have hsub : l ⊆ List.range n := by
    intro x hx
    obtain ⟨t', rfl, -, hsub⟩ := hl x hx
    exact mem_range.mpr (hn _ (hsub _ (mem_pages t')))
  have hperm := (hnodup.subperm hsub).length_le
  rw [length_range] at hperm
  omega

theorem path_length_le (key : Key) (h : ∀ c ∈ t.pages, read c.1 = some c.2)
    (hn : ∀ c ∈ t.pages, c.1 < n) : (t.path key).length ≤ n :=
  (t.path_length_le_height key).trans (height_le read h hn)

end Paths

/-! ## Reading -/

/-- A reader that has the cells, inside its bound. -/
def Covers (r : Reader) (C : List (PageId × Page)) : Prop :=
  ∀ c ∈ C, r.read c.1 = .ok c.2 ∧ c.1 < r.bound ∧ c.1 ≠ NIL_PAGE

theorem Holds.covers {b : Batch} {L : FreePages} (hs : Sound b L)
    (h : Holds (view b L) C) : Covers (batchReader b) C := by
  intro c hc
  have hread := Holds.pageBytes h hc
  refine ⟨hread, ?_, ne_nil_of_pageBytes hs hread⟩
  exact not_le.mp fun hle => h.apart c hc (.inl hle)

/-- The descent of a read ends where the search in the tree does. -/
theorem getLoop_eq (t : Located) :
    ∀ {fuel : Nat}, Covers r t.pages → t.shape.InOrder → (t.path key).length ≤ fuel →
      getLoop r key fuel t.page = readFound r (t.shape.find key) := by
  induction t using descend key with
  | hleaf p es =>
      intro fuel hr ho hfuel
      rw [path_leaf] at hfuel
      obtain ⟨fuel, rfl⟩ : ∃ n, fuel = n + 1 := ⟨fuel - 1, by simp at hfuel; omega⟩
      have hread : r.read p = .ok (.node (.leaf es)) := (hr _ (mem_pages (.leaf p es))).1
      rw [shape_leaf] at ho ⊢
      rw [page, getLoop, hread]
      simp only
      rw [findInLeaf_eq_get (Tree.all_leaf.mp ho), Tree.find]
  | hbranch p f es ih =>
      intro fuel hr ho hfuel
      rw [path_branch, length_cons] at hfuel
      obtain ⟨fuel, rfl⟩ : ∃ n, fuel = n + 1 := ⟨fuel - 1, by omega⟩
      have hread : r.read p = .ok (.node (branch p f es).node) :=
        (hr _ (mem_pages (.branch p f es))).1
      obtain ⟨pre, s, hc⟩ := Fan.exists_cut f es (Fan.rank_le_length key es)
      rw [shape_branch] at ho
      obtain ⟨-, hof, hoes⟩ := Tree.all_branch.mp ho
      rw [shape_branch, find_branch, shape_branchChild,
        ← @ih fuel ?_ ?_ (by omega)]
      · show getLoop r key (fuel + 1) p = _
        rw [getLoop, hread, node]
        simp only [page_branchChild]
      · intro c hm
        refine hr c ?_
        rw [pages_cut hc]
        exact mem_append_right _ (mem_append_left _ hm)
      · exact Fan.child_of_forall (P := fun t : Located => t.shape.InOrder) hof
          (fun e he => hoes _ (mem_map_of_mem he)) _

/-! ## Trees that may be empty -/

/-- The root page; no page is the root of the empty tree. -/
def rootOf : Option Located → PageId
  | none => NIL_PAGE
  | some t => t.page

def cellsOf : Option Located → List (PageId × Page)
  | none => []
  | some t => t.pages

def entriesOf (o : Option Located) : List (Key × ValueRef) := topEntries (o.map shape)

/-- **THE TREE SHOWS THE MAP**: the search-tree invariant, nodes that fit, keys
    that are legal, values that a slice can have, and for every key of the map
    its value. -/
structure Shows (ps : Nat) (o : Option Located) (V : List (PageId × Page))
    (m : Key → Option Bytes) : Prop where
  ordered : ∀ t, o = some t → t.shape.Ordered
  fits : ∀ t, o = some t → t.shape.Fits ps
  legal : ∀ e ∈ entriesOf o, 0 < e.1.length ∧ e.1.length ≤ maxKeyLen ps
  sized : ∀ k bytes, m k = some bytes → bytes.length ≤ ISIZE_MAX
  absent : ∀ k, AssocList.get k (entriesOf o) = none → m k = none
  present : ∀ k v, AssocList.get k (entriesOf o) = some v →
    ∃ bytes, m k = some bytes ∧ ValueAt V ps v bytes

theorem shows_nil (ps : Nat) (V : List (PageId × Page)) : Shows ps none V (fun _ => none) :=
  ⟨nofun, nofun, nofun, nofun, fun _ _ => rfl, nofun⟩

/-- Keys that `put` refuses are not in the map. -/
theorem Shows.none_of_illegal (h : Shows ps o V m)
    (hk : ¬ (0 < key.length ∧ key.length ≤ maxKeyLen ps)) : m key = none :=
  h.absent key (AssocList.get_eq_none fun e he heq => hk (heq ▸ h.legal e he))

/-- Facts about the shape, seen through the option. -/
theorem forall_shape {P : Tree → Prop} (h : ∀ t, o = some t → P t.shape) :
    ∀ s, o.map shape = some s → P s := by
  intro s hs
  obtain ⟨t, rfl, rfl⟩ := Option.map_eq_some_iff.mp hs
  exact h t rfl

theorem Shows.topFind_eq (h : Shows ps o V m) (key : Key) :
    topFind key (o.map shape) = AssocList.get key (entriesOf o) := by
  exact topFind_eq_get (forall_shape h.ordered)

/-- A read of a key that is not too long ends where the search does. -/
theorem reader_find (hr : Covers r (cellsOf o)) (ho : ∀ t, o = some t → t.shape.InOrder)
    (hk : key.length ≤ maxKeyLen r.pageSize) :
    r.get (rootOf o) key = readFound r (topFind key (o.map shape)) := by
  unfold Reader.get
  cases o with
  | none => exact if_pos (.inl rfl)
  | some t =>
      have hne : ¬ (rootOf (some t) = NIL_PAGE ∨ maxKeyLen r.pageSize < key.length) := by
        rintro (h | h)
        · exact (hr _ (mem_pages t)).2.2 h
        · exact absurd hk (not_le.mpr h)
      have hpath : (t.path key).length ≤ r.bound :=
        path_length_le (fun id => (r.read id).toOption) key
          (fun c hc => by rw [(hr c hc).1]; rfl) (fun c hc => (hr c hc).2.1)
      rw [if_neg hne]
      exact getLoop_eq t hr (ho t rfl) hpath

/-- **READING**: a reader that has the pages gets the map. -/
theorem reader_get (hr : Covers r (cellsOf o ++ V)) (hm : Shows r.pageSize o V m) (key : Key) :
    r.get (rootOf o) key = .ok (m key) := by
  by_cases hlong : maxKeyLen r.pageSize < key.length
  · rw [Reader.get, if_pos (.inr hlong), hm.none_of_illegal fun h => absurd h.2 (not_le.mpr hlong)]
  · rw [reader_find (fun c hc => hr c (mem_append_left _ hc))
      (fun t ht => inOrder_of_ordered (hm.ordered t ht)) (not_lt.mp hlong), hm.topFind_eq]
    cases hget : AssocList.get key (entriesOf o) with
    | none => rw [hm.absent key hget, readFound]
    | some v =>
        obtain ⟨bytes, hbytes, hat⟩ := hm.present key v hget
        rw [hbytes, readFound, readValue_at (fun c hc => (hr c (mem_append_right _ hc)).1) hat
          (hm.sized key bytes hbytes)]

/-! ## Inserting -/

section Insert

variable {b : Batch} {L : FreePages} {o : Option Located} {key : Key}
  {V : List (PageId × Page)}

theorem path_le_nextPage (hs : Sound b L) (hh : Holds (view b L) t.pages) :
    (t.path key).length ≤ b.nextPage :=
  path_length_le _ key hh.stored fun c hc => ((Holds.covers hs hh) c hc).2.1

/-- How a call that inserts the key at the root has to end; `X` are the other
    pages it leaves. -/
def PlantPost (key : Key) (b : Batch) (L : FreePages)
    (C X : List (PageId × Page)) (r : EStateM.Result Error Batch PageId) : Option Tree → Prop
  | some s => ∃ (t : Located) (b' : Batch) (L' : FreePages),
      r = .ok t.page b' ∧ t.shape = s ∧ Work b L C b' L' (t.pages ++ X) ∧ Landed key b' t.pages
  | none => ∃ what b', r = .error (.panic what) b'

/-- Work before the call, and pages that the call does not name. -/
theorem PlantPost.after {b₀ : Batch} {L₀ : FreePages}
    {C₀ W : List (PageId × Page)} {r : EStateM.Result Error Batch PageId}
    (hw : Work b₀ L₀ C₀ b L (W ++ (C ++ V))) (h : PlantPost key b L C [] r s) :
    PlantPost key b₀ L₀ C₀ (W ++ V) r s := by
  cases s with
  | none => exact h
  | some s =>
      obtain ⟨t, b', L', hr, ht, hw', hland⟩ := h
      rw [append_nil] at hw'
      refine ⟨t, b', L', hr, ht, (hw.trans (hw'.frame_mid hw.holds)).perm (List.Perm.refl _) ?_,
        hland⟩
      rw [← append_assoc, ← append_assoc]
      exact perm_append_comm.append_right V

theorem newRoot_post {m : BatchM Insert} (h : InsertPost key b L C (m b) i) (hi : i ≠ .duplicate) :
    PlantPost key b L C [] ((m >>= newRoot) b) (plant b.pageSize i) := by
  cases i with
  | done s =>
      obtain ⟨t, b', L', hrun, ht, hw, hland⟩ := h
      refine ⟨t, b', L', by rw [bind_ok hrun]; rfl, ht, ?_, hland⟩
      rw [append_nil]
      exact hw
  | duplicate => exact absurd rfl hi
  | overrun =>
      obtain ⟨what, b', hrun⟩ := h
      exact ⟨what, b', bind_error hrun⟩
  | split l sep r =>
      obtain ⟨tl, tr, b', L', hrun, rfl, rfl, hw, hland⟩ := h
      have hsize : (Node.branch tl.page [(sep, tr.page)]).encodedSize
          = (Tree.branch tl.shape [(sep, tr.shape)]).size := rfl
      rw [bind_ok hrun, newRoot, plant]
      by_cases hfit : (Tree.branch tl.shape [(sep, tr.shape)]).size ≤ b.pageSize
      · rw [if_pos hfit]
        obtain ⟨x, b₁, L₁, hrun₁, hw₁⟩ := writeNode_ok
          (n := .branch tl.page [(sep, tr.page)]) hw.sound none
          (Holds.nil (view b' L')) rfl (by rw [hsize, hw.stays.pageSize]; exact hfit)
        refine ⟨.branch x tl [(sep, tr)], b₁, L₁, hrun₁, by simp, hw.trans ?_,
          hland.later hw₁ fun c hc => ?_⟩
        · rw [pages_branch, append_nil]
          have := hw₁.frame (D := tl.pages ++ tr.pages) hw.holds
          simpa [Fan.slots, node] using this
        · rw [pages_branch]
          simpa [Fan.slots] using .inr (mem_append.mp hc)
      · rw [if_neg hfit]
        obtain ⟨b₁, hrun₁⟩ := writeNode_panic
          (n := .branch tl.page [(sep, tr.page)]) hw.sound none
          (Holds.nil (view b' L')) rfl
          (by rw [hsize, hw.stays.pageSize]; exact not_le.mp hfit)
        exact ⟨_, b₁, hrun₁⟩

/-- **THE TREE BELOW THE ROOT TAKES THE ENTRY**. -/
theorem insertAtRoot_post (hs : Sound b L) (hh : Holds (view b L) (cellsOf o))
    (ho : ∀ t, o = some t → t.shape.InOrder) (hf : ∀ t, o = some t → t.shape.Fits b.pageSize)
    (v : ValueRef) :
    PlantPost key b L (cellsOf o) [] (insertAtRoot (rootOf o) key v b)
      (insertTop b.pageSize key v (o.map shape)) := by
  unfold insertAtRoot
  cases o with
  | none =>
      have hsize : (Node.leaf [(key, v)]).encodedSize = (Tree.leaf [(key, v)]).size := rfl
      rw [if_pos (show rootOf none = NIL_PAGE from rfl)]
      simp only [Option.map_none, insertTop]
      by_cases hfit : (Tree.leaf [(key, v)]).size ≤ b.pageSize
      · rw [if_pos hfit]
        obtain ⟨x, b₁, L₁, hrun, hw⟩ :=
          writeNode_ok (n := .leaf [(key, v)]) hs none hh rfl hfit
        refine ⟨.leaf x [(key, v)], b₁, L₁, hrun, shape_leaf .., ?_⟩
        rw [pages_leaf]
        exact ⟨hw, x, _, mem_singleton.mpr rfl, by simp [AssocList.get], writeNode_owned hrun⟩
      · rw [if_neg hfit]
        obtain ⟨b₁, hrun⟩ :=
          writeNode_panic (n := .leaf [(key, v)]) hs none hh rfl (not_le.mp hfit)
        exact ⟨_, b₁, hrun⟩
  | some t =>
      have hne : rootOf (some t) ≠ NIL_PAGE :=
        ((Holds.covers hs hh) _ (mem_pages t)).2.2
      have hpost := insertRec_post key v false t hs hh (ho t rfl) (hf t rfl)
        (path_le_nextPage hs hh)
      rw [if_neg hne, get_bind]
      exact newRoot_post hpost fun hd => Bool.noConfusion (insert_duplicate.mp hd).1

theorem checkKey_ok (hk : 0 < key.length) (hk' : key.length ≤ maxKeyLen ps) :
    checkKey ps key b = .ok () b := by
  unfold checkKey
  rw [if_neg (Nat.pos_iff_ne_zero.mp hk), if_neg (not_lt.mpr hk')]
  rfl

/-- **PUT**, from the root page that goes in to the one that comes out. -/
theorem put_post (hs : Sound b L) (hh : Holds (view b L) (cellsOf o ++ V))
    (ho : ∀ t, o = some t → t.shape.InOrder) (hf : ∀ t, o = some t → t.shape.Fits b.pageSize)
    (hps : 512 ≤ b.pageSize) (hk : 0 < key.length) (hk' : key.length ≤ maxKeyLen b.pageSize)
    (value : Bytes) :
    ∃ v W, Placed b.pageSize value v ∧ ValueAt W b.pageSize v value
      ∧ PlantPost key b L (cellsOf o ++ V) (W ++ V) (put (rootOf o) key value b)
          (insertTop b.pageSize key v (o.map shape)) := by
  obtain ⟨v, b₁, L₁, W, hrun, hw, hat, hplaced⟩ := placeValue_work hs hps value
  have hw' := hw.frame hh
  have hps₁ : b₁.pageSize = b.pageSize := hw.stays.pageSize
  refine ⟨v, W, hplaced, hat, ?_⟩
  have hcall : put (rootOf o) key value b = insertAtRoot (rootOf o) key v b₁ := by
    unfold put
    rw [get_bind, bind_ok (checkKey_ok hk hk'), bind_ok hrun]
  rw [hcall, ← hps₁]
  refine PlantPost.after hw' (insertAtRoot_post hw.sound ?_ ho (fun t ht => hps₁ ▸ hf t ht) v)
  exact hw'.holds.sublist ((sublist_append_left _ _).trans (sublist_append_right _ _))

/-- `put_unique` of a large value reads what is there. -/
theorem putUnique_reads (hs : Sound b L) (hC : Holds (view b L) (cellsOf o))
    (ho : ∀ t, o = some t → t.shape.InOrder) (hk' : key.length ≤ maxKeyLen b.pageSize)
    {value : Bytes} (hbig : inlineMax b.pageSize < value.length) {w : ValueRef}
    (hw : topFind key (o.map shape) = some w) :
    putUnique (rootOf o) key value b = match readValue (batchReader b) w with
      | .error e => .error e b
      | .ok _ => .ok (rootOf o, false) b := by
  unfold putUnique
  rw [get_bind, if_pos hbig, reader_find (Holds.covers hs hC) ho hk', hw, readFound]
  cases readValue (batchReader b) w <;> rfl

/-- `put_unique` on a key that is there: nothing changes, unless the value that
    is there has to be read and cannot be. -/
theorem putUnique_found (hs : Sound b L) (hh : Holds (view b L) (cellsOf o ++ V))
    (ho : ∀ t, o = some t → t.shape.InOrder) (hf : ∀ t, o = some t → t.shape.Fits b.pageSize)
    (hk : 0 < key.length) (hk' : key.length ≤ maxKeyLen b.pageSize) (value : Bytes)
    {w : ValueRef} (hw : topFind key (o.map shape) = some w) :
    (∃ b' L', putUnique (rootOf o) key value b = .ok (rootOf o, false) b'
        ∧ Work b L (cellsOf o ++ V) b' L' (cellsOf o ++ V))
      ∨ ∃ e, inlineMax b.pageSize < value.length ∧ readValue (batchReader b) w = .error e
        ∧ putUnique (rootOf o) key value b = .error e b := by
  have hC : Holds (view b L) (cellsOf o) := hh.sublist (sublist_append_left _ _)
  by_cases hbig : inlineMax b.pageSize < value.length
  · rw [putUnique_reads hs hC ho hk' hbig hw]
    cases hv : readValue (batchReader b) w with
    | error e => exact .inr ⟨e, hbig, rfl, rfl⟩
    | ok bytes => exact .inl ⟨b, L, rfl, Work.refl hs hh⟩
  · unfold putUnique
    rw [get_bind]
    cases o with
    | none => nomatch hw
    | some t =>
        have hne : rootOf (some t) ≠ NIL_PAGE := ((Holds.covers hs hC) _ (mem_pages t)).2.2
        have hpost := insertRec_post key (.inline value) true t hs hC
          (ho t rfl) (hf t rfl) (path_le_nextPage hs hC)
        have hdup : t.shape.insert b.pageSize key (.inline value) true = .duplicate :=
          insert_duplicate.mpr ⟨rfl, by rw [show t.shape.find key = some w from hw]; rfl⟩
        rw [hdup] at hpost
        obtain ⟨b₁, L₁, hrun, hw₁⟩ := hpost
        rw [if_neg hbig, bind_ok (checkKey_ok hk hk'), if_neg hne, rootOf, bind_ok hrun]
        exact .inl ⟨b₁, L₁, rfl, hw₁.frame hh⟩

/-- A call that returns the new root and that it was inserted. -/
def thenTrue (m : BatchM PageId) : BatchM (PageId × Bool) := do
  return (← m, true)

/-- An insertion that is no duplicate goes on to the root. -/
theorem unlessDuplicate_eq {m : BatchM Insert} {root : PageId} (h : InsertPost key b L C (m b) i)
    (hi : i ≠ .duplicate) : (m >>= unlessDuplicate root) b = thenTrue (m >>= newRoot) b := by
  unfold thenTrue
  cases i with
  | duplicate => exact absurd rfl hi
  | overrun =>
      obtain ⟨what, b', hrun⟩ := h
      rw [bind_error hrun, bind_error (bind_error hrun)]
  | done s =>
      obtain ⟨t, b', L', hrun, -, -, -⟩ := h
      have hnew : (m >>= newRoot) b = .ok t.page b' := bind_ok hrun
      rw [bind_ok hrun, bind_ok hnew]
      rfl
  | split l sep r =>
      obtain ⟨tl, tr, b', L', hrun, -, -, -, -⟩ := h
      rw [bind_ok hrun]
      show (newRoot (.split tl.page sep tr.page) >>= fun x => pure (x, true)) b' = _
      cases hnew : newRoot (.split tl.page sep tr.page) b' with
      | ok x b'' => rw [bind_ok hnew, bind_ok ((bind_ok hrun).trans hnew)]
      | error e b'' => rw [bind_error hnew, bind_error ((bind_ok hrun).trans hnew)]

/-- `put_unique` on a key that is not there is `put`. -/
theorem putUnique_absent (hs : Sound b L) (hh : Holds (view b L) (cellsOf o ++ V))
    (ho : ∀ t, o = some t → t.shape.InOrder) (hf : ∀ t, o = some t → t.shape.Fits b.pageSize)
    (hps : 512 ≤ b.pageSize) (hk : 0 < key.length) (hk' : key.length ≤ maxKeyLen b.pageSize)
    (value : Bytes) (habs : topFind key (o.map shape) = none) :
    ∃ v W m, Placed b.pageSize value v ∧ ValueAt W b.pageSize v value
      ∧ putUnique (rootOf o) key value b = thenTrue m b
      ∧ PlantPost key b L (cellsOf o ++ V) (W ++ V) (m b)
          (insertTop b.pageSize key v (o.map shape)) := by
  have hC : Holds (view b L) (cellsOf o) := hh.sublist (sublist_append_left _ _)
  obtain ⟨v, W, hplaced, hat, hput⟩ := put_post hs hh ho hf hps hk hk' value
  unfold putUnique
  rw [get_bind]
  by_cases hbig : inlineMax b.pageSize < value.length
  · refine ⟨v, W, put (rootOf o) key value, hplaced, hat, ?_, hput⟩
    rw [if_pos hbig, reader_find (Holds.covers hs hC) ho hk', habs]
    rfl
  · cases o with
    | none =>
        refine ⟨v, W, put (rootOf none) key value, hplaced, hat, ?_, hput⟩
        rw [if_neg hbig, bind_ok (checkKey_ok hk hk'),
          if_pos (show rootOf none = NIL_PAGE from rfl)]
        rfl
    | some t =>
        have hne : rootOf (some t) ≠ NIL_PAGE := ((Holds.covers hs hC) _ (mem_pages t)).2.2
        have hpost := insertRec_post key (.inline value) true t hs hC
          (ho t rfl) (hf t rfl) (path_le_nextPage hs hC)
        have hnodup : t.shape.insert b.pageSize key (.inline value) true ≠ .duplicate :=
          fun hd => by
          have := (insert_duplicate.mp hd).2
          rw [show t.shape.find key = none from habs] at this
          nomatch this
        have hroot := newRoot_post (m := insertRec key (.inline value) true b.nextPage t.page)
          hpost hnodup
        have hins : insertTop b.pageSize key (.inline value) (Option.map shape (some t))
            = plant b.pageSize (t.shape.insert b.pageSize key (.inline value) true) := by
          rw [insert_of_absent habs true]
          rfl
        refine ⟨.inline value, [], insertRec key (.inline value) true b.nextPage t.page >>= newRoot,
          by rw [Placed, if_neg hbig], rfl, ?_, ?_⟩
        · rw [if_neg hbig, bind_ok (checkKey_ok hk hk'), if_neg hne, rootOf]
          exact unlessDuplicate_eq hpost hnodup
        · rw [hins]
          exact PlantPost.after (W := []) (Work.refl hs hh) hroot

end Insert

/-! ## Removing -/

section Remove

variable {b : Batch} {L : FreePages} {o : Option Located} {key : Key}
  {V : List (PageId × Page)}

/-- How `remove` has to end. -/
def UprootPost (b : Batch) (L : FreePages) (C X : List (PageId × Page))
    (r : EStateM.Result Error Batch (PageId × Bool)) : Option (Option Tree × Bool) → Prop
  | some x => ∃ (o' : Option Located) (b' : Batch) (L' : FreePages),
      r = .ok (rootOf o', x.2) b' ∧ o'.map shape = x.1
        ∧ Work b L C b' L' (cellsOf o' ++ X)
  | none => ∃ page b', r = .error (.corrupted page "sibling nodes of different kinds") b'

/-- **REMOVE**, from the root page that goes in to the one that comes out. -/
theorem remove_post (hs : Sound b L) (hh : Holds (view b L) (cellsOf o ++ V))
    (ho : ∀ t, o = some t → t.shape.Ordered) (hf : ∀ t, o = some t → t.shape.Fits b.pageSize)
    (hk : key.length ≤ maxKeyLen b.pageSize) :
    UprootPost b L (cellsOf o ++ V) V (remove (rootOf o) key b)
      (deleteTop b.pageSize key (o.map shape)) := by
  unfold remove
  rw [get_bind]
  cases o with
  | none =>
      rw [if_pos (.inl (show rootOf none = NIL_PAGE from rfl))]
      exact ⟨none, b, L, rfl, rfl, Work.refl hs hh⟩
  | some t =>
      have hC : Holds (view b L) t.pages := hh.sublist (sublist_append_left _ _)
      have hne : ¬ (rootOf (some t) = NIL_PAGE ∨ maxKeyLen b.pageSize < key.length) := by
        rintro (h | h)
        · exact ((Holds.covers hs hC) _ (mem_pages t)).2.2 h
        · exact absurd hk (not_le.mpr h)
      have hpost := deleteRec_post key t hs hC (ho t rfl) (hf t rfl)
        (path_le_nextPage hs hC)
      rw [if_neg hne, rootOf, Option.map_some, deleteTop]
      cases hr : t.shape.delete b.pageSize key with
      | notFound =>
          rw [hr] at hpost
          obtain ⟨b', L', hrun, hw⟩ := hpost
          exact ⟨some t, b', L', by rw [bind_ok hrun]; rfl, rfl, hw.frame hh⟩
      | updated s =>
          rw [hr] at hpost
          obtain ⟨t', b', L', hrun, rfl, hw⟩ := hpost
          exact ⟨some t', b', L', by rw [bind_ok hrun]; rfl, rfl, hw.frame hh⟩
      | emptied =>
          rw [hr] at hpost
          obtain ⟨b', L', hrun, hw⟩ := hpost
          exact ⟨none, b', L', by rw [bind_ok hrun]; rfl, rfl, hw.frame hh⟩
      | mixed =>
          rw [hr] at hpost
          obtain ⟨page, b', hrun⟩ := hpost
          exact ⟨page, b', bind_error hrun⟩

end Remove

/-! ## What the calls do to the map -/

section Map

variable {ps : Nat} {o : Option Located} {key : Key} {V W : List (PageId × Page)}
  {m : Key → Option Bytes}

theorem insertTop_fits {o : Option Tree} {s : Tree} (hf : ∀ t, o = some t → t.Fits ps)
    (h : insertTop ps key v o = some s) : s.Fits ps := by
  cases o with
  | none =>
      simp only [insertTop] at h
      split at h
      · next hfit => cases h; exact fits_leaf.mpr hfit
      · cases h
  | some t =>
      have hins := insert_fits key v false (hf t rfl)
      simp only [insertTop, plant] at h
      split at h
      · next hr => cases h; rw [hr] at hins; exact hins
      · next l sep r hr =>
        rw [hr] at hins
        split at h
        · next hfit =>
          cases h
          refine fits_branch.mpr ⟨hfit, hins.1, fun e he => ?_⟩
          obtain rfl := mem_singleton.mp he
          exact hins.2
        · cases h
      · cases h
      · cases h

theorem deleteTop_fits {o : Option Tree} (hf : ∀ t, o = some t → t.Fits ps)
    (h : deleteTop ps key o = some (s, found)) : ∀ t, s = some t → t.Fits ps := by
  cases o with
  | none => cases h; rintro _ ⟨⟩
  | some t =>
      simp only [deleteTop, uproot] at h
      split at h
      · cases h; exact hf
      · next t' hr =>
        cases h
        rintro x ⟨rfl⟩
        exact delete_fits (hf t rfl) hr
      · cases h; rintro _ ⟨⟩
      · cases h

/-- **A TREE THAT TOOK AN ENTRY SHOWS THE MAP WITH IT**. -/
theorem shows_insert (h : Shows ps o V m) {value : Bytes}
    (hk : 0 < key.length ∧ key.length ≤ maxKeyLen ps) (hat : ValueAt W ps v value)
    (hsize : value.length ≤ ISIZE_MAX) (ht : insertTop ps key v (o.map shape) = some t.shape) :
    Shows ps (some t) (W ++ V) (update m key (some value)) := by
  have hord := forall_shape h.ordered
  have hfit := forall_shape h.fits
  obtain ⟨ho, hent⟩ := insertTop_spec hord ht
  have hent' : entriesOf (some t) = AssocList.put key v (entriesOf o) := hent
  refine ⟨?_, ?_, ?_, ?_, ?_, ?_⟩
  · rintro x ⟨rfl⟩; exact ho
  · rintro x ⟨rfl⟩; exact insertTop_fits hfit ht
  · intro e he
    rw [hent'] at he
    rcases AssocList.mem_put he with rfl | hmem
    · exact hk
    · exact h.legal e hmem
  · intro k bytes hb
    rcases eq_or_ne k key with rfl | hne
    · rw [update_self] at hb
      exact Option.some.inj hb ▸ hsize
    · rw [update_of_ne hne] at hb
      exact h.sized k bytes hb
  · intro k hk
    rw [hent', AssocList.get_put] at hk
    split at hk
    · nomatch hk
    · next hne => rw [update_of_ne hne]; exact h.absent k hk
  · intro k w hw
    rw [hent', AssocList.get_put] at hw
    split at hw
    · next heq =>
      cases hw
      subst heq
      exact ⟨value, update_self .., hat.mono fun c hc => mem_append_left _ hc⟩
    · next hne =>
      obtain ⟨bytes, hb, hat'⟩ := h.present k w hw
      exact ⟨bytes, by rw [update_of_ne hne]; exact hb,
        hat'.mono fun c hc => mem_append_right _ hc⟩

/-- **A TREE THAT LOST A KEY SHOWS THE MAP WITHOUT IT**. -/
theorem shows_delete (h : Shows ps o V m) {o' : Option Located}
    (ho' : deleteTop ps key (o.map shape) = some (o'.map shape, found)) :
    Shows ps o' V (update m key none) ∧ found = (m key).isSome := by
  have hord := forall_shape h.ordered
  have hfit := forall_shape h.fits
  obtain ⟨hord', hent, hfound⟩ := deleteTop_spec hord ho'
  have hent' : entriesOf o' = AssocList.del key (entriesOf o) := hent
  refine ⟨⟨?_, ?_, ?_, ?_, ?_, ?_⟩, ?_⟩
  · rintro t rfl; exact hord' _ rfl
  · rintro t rfl; exact deleteTop_fits hfit ho' _ rfl
  · intro e he
    rw [hent'] at he
    exact h.legal e (mem_of_mem_filter he)
  · intro k bytes hb
    rcases eq_or_ne k key with rfl | hne
    · rw [update_self] at hb
      nomatch hb
    · rw [update_of_ne hne] at hb
      exact h.sized k bytes hb
  · intro k hk
    rw [hent', AssocList.get_del] at hk
    split at hk
    · next heq => subst heq; exact update_self ..
    · next hne => rw [update_of_ne hne]; exact h.absent k hk
  · intro k w hw
    rw [hent', AssocList.get_del] at hw
    split at hw
    · nomatch hw
    · next hne =>
      rw [update_of_ne hne]
      exact h.present k w hw
  · rw [hfound]
    show (AssocList.get key (entriesOf o)).isSome = (m key).isSome
    cases hget : AssocList.get key (entriesOf o) with
    | none => rw [h.absent key hget]; rfl
    | some v =>
        obtain ⟨bytes, hb, -⟩ := h.present key v hget
        rw [hb]; rfl

end Map

end QuantyBtreeMap
