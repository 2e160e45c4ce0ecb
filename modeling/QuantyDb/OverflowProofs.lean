import QuantyDb.DeleteSimProofs

/-! # Values

    A value too large for its leaf lives in a chain of overflow pages.
    `ValueAt V ps v bytes` says that the pages `V` hold what the reference `v`
    stands for; a reader that has those pages reads the value back.  The pages
    of a chain are written once, by the call that allocates them, and are
    never part of a tree's own pages, so the frame rule carries them past
    every later call. -/

namespace QuantyOverflow

open QuantyKey QuantyPage QuantyPager QuantyPagerInv QuantyBtree QuantyTree QuantyTreeMap List
open QuantyTreeFits QuantyBtreeSim CowHeap

/-- The chain of overflow pages from a page on, with the part each holds. -/
def OverflowAt (V : List (PageId × Page)) (capacity : Nat) : PageId → List Bytes → Prop
  | id, [] => id = NIL_PAGE
  | id, part :: parts => id ≠ NIL_PAGE ∧ part.length ≤ capacity
      ∧ ∃ next, (id, Page.overflow next part) ∈ V ∧ OverflowAt V capacity next parts

/-- The pages `V` hold the value that a reference stands for. -/
def ValueAt (V : List (PageId × Page)) (ps : Nat) : ValueRef → Bytes → Prop
  | .inline v, bytes => v = bytes
  | .overflow head len, bytes => bytes.length = len ∧ ∃ parts,
      OverflowAt V (overflowCapacity ps) head parts ∧ parts.flatten = bytes
        ∧ parts.length ≤ maxPages ps len

variable {parts : List Bytes} {bytes : Bytes} {n : Nat} {v : ValueRef} {V : List (PageId × Page)}
  {r : Reader} {ids : List PageId}

section Mono

variable {V W : List (PageId × Page)} {ps : Nat}

theorem OverflowAt.mono (h : ∀ c ∈ V, c ∈ W) {capacity : Nat} {id : PageId}
    (ha : OverflowAt V capacity id parts) : OverflowAt W capacity id parts := by
  induction parts generalizing id with
  | nil => exact ha
  | cons part parts ih =>
      obtain ⟨hne, hlen, next, hm, hrest⟩ := ha
      exact ⟨hne, hlen, next, h _ hm, ih hrest⟩

theorem ValueAt.mono (h : ∀ c ∈ V, c ∈ W) (ha : ValueAt V ps v bytes) : ValueAt W ps v bytes := by
  cases v with
  | inline x => exact ha
  | overflow head len =>
      obtain ⟨hlen, parts, hat, hflat, hcount⟩ := ha
      exact ⟨hlen, parts, hat.mono h, hflat, hcount⟩

end Mono

/-! ## Reading -/

theorem overflowLoop_at (hr : ∀ c ∈ V, r.read c.1 = .ok c.2) {id : PageId} {out : Bytes}
    (h : OverflowAt V (overflowCapacity r.pageSize) id parts) (hn : parts.length ≤ n) :
    overflowLoop r.part n id out = .ok (NIL_PAGE, out ++ parts.flatten) := by
  induction parts generalizing id n out with
  | nil =>
      obtain rfl : id = NIL_PAGE := h
      cases n <;> simp [overflowLoop]
  | cons part parts ih =>
      obtain ⟨hne, hlen, next, hm, hrest⟩ := h
      obtain ⟨n, rfl⟩ : ∃ k, n = k + 1 := ⟨n - 1, by simp at hn; omega⟩
      have hpart : r.part id = .ok (next, part) := by
        rw [Reader.part, hr _ hm]
        exact if_neg (not_lt.mpr hlen)
      rw [overflowLoop, if_neg hne, hpart]
      dsimp only
      rw [ih hrest (by simpa using hn), flatten_cons, append_assoc]

/-- **A READER THAT HAS THE PAGES READS THE VALUE**. -/
theorem readValue_at (hr : ∀ c ∈ V, r.read c.1 = .ok c.2) (h : ValueAt V r.pageSize v bytes)
    (hsize : bytes.length ≤ ISIZE_MAX) : readValue r v = .ok bytes := by
  cases v with
  | inline x => exact congrArg Except.ok h
  | overflow head len =>
      obtain ⟨hlen, parts, hat, rfl, hcount⟩ := h
      rw [readValue, readChain, if_neg (not_lt.mpr (hlen ▸ hsize)), overflowLoop_at hr hat hcount]
      simp [hlen]

/-! ## Writing -/

theorem chunks_flatten (hn : 0 < n) {fuel : Nat} (h : bytes.length ≤ fuel) :
    (chunks n fuel bytes).flatten = bytes := by
  induction fuel generalizing bytes with
  | zero => simp [chunks, length_eq_zero_iff.mp (Nat.le_zero.mp h)]
  | succ fuel ih =>
      cases bytes with
      | nil => rfl
      | cons x xs =>
          rw [chunks, flatten_cons, ih, take_append_drop]
          rw [length_drop]
          omega

theorem chunks_length_le (n fuel : Nat) (bytes : Bytes) :
    ∀ part ∈ chunks n fuel bytes, part.length ≤ n := by
  induction fuel generalizing bytes with
  | zero => simp [chunks]
  | succ fuel ih =>
      cases bytes with
      | nil => simp [chunks]
      | cons x xs =>
          intro part hpart
          rcases mem_cons.mp hpart with rfl | hmem
          · exact length_take_le _ _
          · exact ih _ part hmem

theorem chunks_count (hn : 0 < n) (fuel : Nat) (bytes : Bytes) :
    (chunks n fuel bytes).length ≤ (bytes.length + n - 1) / n := by
  induction fuel generalizing bytes with
  | zero => simp [chunks]
  | succ fuel ih =>
      cases bytes with
      | nil => simp [chunks]
      | cons x xs =>
          rw [chunks, length_cons]
          have hrest := ih ((x :: xs).drop n)
          rw [length_drop] at hrest
          by_cases hlen : (x :: xs).length ≤ n
          · -- the last part: nothing is left after it
            have h0 : (x :: xs).length - n + n - 1 = n - 1 := by omega
            rw [h0, Nat.div_eq_of_lt (by omega)] at hrest
            refine le_trans (Nat.succ_le_succ hrest) ((Nat.le_div_iff_mul_le hn).mpr ?_)
            simp only [length_cons]
            omega
          · have h1 : (x :: xs).length - n + n - 1 = (x :: xs).length - 1 := by omega
            have h2 : (x :: xs).length + n - 1 = ((x :: xs).length - 1) + n := by
              simp only [length_cons]; omega
            rw [h1] at hrest
            rw [h2, Nat.add_div_right _ hn]
            exact Nat.succ_le_succ hrest

section Write

variable {b : Batch} {L : FreePages}

/-- A page that is held and owned is dirty. -/
theorem get_of_holds_owned {C : List (PageId × Page)} (hC : Holds (view b L) C)
    {c : PageId × Page} (hm : c ∈ C) (ho : (view b L).Owned c.1) :
    AssocList.get c.1 b.dirty = some c.2 := by
  obtain ⟨p, hp⟩ := owns_iff.mp ho
  have h1 := pageBytes_of_owned hp
  rw [Holds.pageBytes hC hm] at h1
  cases h1
  exact hp

/-- A page for each part, none of them in use before. -/
theorem allocateEach_work (hs : Sound b L) (ty : PageType) (parts : List Bytes) :
    ∃ ids b' L', allocateEach ty parts b = .ok ids b' ∧ ids.length = parts.length
      ∧ Work b L [] b' L' (ids.map fun id => (id, Page.blank ty))
      ∧ ∀ id ∈ ids, (view b' L').Owned id := by
  induction parts generalizing b L with
  | nil =>
      exact ⟨[], b, L, rfl, rfl, Work.refl hs (Holds.nil _), nofun⟩
  | cons part parts ih =>
      obtain ⟨L₁, hw₁, hget⟩ := allocate_work hs ty
      obtain ⟨ids, b₂, L₂, hrun, hlen, hw₂, hown⟩ := ih hw₁.sound
      have hw₂' := hw₂.frame (D := [((b.allocate ty).1, Page.blank ty)]) hw₁.holds
      refine ⟨(b.allocate ty).1 :: ids, b₂, L₂, ?_, by simp [hlen],
        (hw₁.trans hw₂').perm (List.Perm.refl _) (perm_append_singleton _ _), ?_⟩
      · have hhead : allocate ty b = .ok (b.allocate ty).1 (b.allocate ty).2 := rfl
        rw [allocateEach, bind_ok hhead, bind_ok hrun]
        rfl
      · intro id hid
        rcases mem_cons.mp hid with rfl | hmem
        · exact hw₂.moves.ext.owned _ (owns_iff.mpr ⟨_, hget⟩)
        · exact hown id hmem

/-- The pages of a chain, each linked to the next. -/
def chainCells : List Bytes → List PageId → List (PageId × Page)
  | part :: parts, id :: ids =>
      (id, .overflow (ids.headD NIL_PAGE) part) :: chainCells parts ids
  | _, _ => []

theorem writeParts_work {q : Page} (hs : Sound b L) (hlen : ids.length = parts.length)
    (hh : Holds (view b L) (ids.map fun id => (id, q))) (hown : ∀ id ∈ ids, (view b L).Owned id) :
    ∃ b', writeParts parts ids b = .ok () b'
      ∧ Work b L (ids.map fun id => (id, q)) b' L (chainCells parts ids) := by
  induction parts generalizing b ids with
  | nil =>
      obtain rfl := length_eq_zero_iff.mp hlen
      exact ⟨b, rfl, Work.refl hs hh⟩
  | cons part parts ih =>
      cases ids with
      | nil => exact absurd hlen (by simp)
      | cons id ids =>
          have hq := get_of_holds_owned hh (c := (id, q)) (mem_cons_self ..)
            (hown id (mem_cons_self ..))
          obtain ⟨b₁, hmut, hw₁, -, -⟩ :=
            pageMut_work hs hq (fun _ => .overflow (ids.headD NIL_PAGE) part)
          have hw₁' : Work b L ((id, q) :: ids.map fun id => (id, q)) b₁ L
              ((id, .overflow (ids.headD NIL_PAGE) part) :: ids.map fun id => (id, q)) :=
            hw₁.frame hh
          obtain ⟨b₂, hrest, hw₂⟩ := ih hw₁.sound (by simpa using hlen)
            (hw₁'.holds.sublist (sublist_cons_self _ _))
            (fun x hx => hw₁.moves.ext.owned x (hown x (.tail _ hx)))
          refine ⟨b₂, ?_, hw₁'.trans ?_⟩
          · rw [writeParts, bind_ok hmut, hrest]
          · have := hw₂.frame_mid (A := [(id, .overflow (ids.headD NIL_PAGE) part)]) (B := [])
              (by simpa using hw₁'.holds)
            simpa [chainCells] using this

theorem overflowAt_chainCells (hlen : ids.length = parts.length) (hne : ∀ id ∈ ids, id ≠ NIL_PAGE)
    (hparts : ∀ part ∈ parts, part.length ≤ n) :
    OverflowAt (chainCells parts ids) n (ids.headD NIL_PAGE) parts := by
  induction parts generalizing ids with
  | nil =>
      obtain rfl := length_eq_zero_iff.mp hlen
      rfl
  | cons part parts ih =>
      cases ids with
      | nil => exact absurd hlen (by simp)
      | cons id ids =>
          refine ⟨hne id (mem_cons_self ..), hparts part (mem_cons_self ..),
            ids.headD NIL_PAGE, (.head _) .., ?_⟩
          refine (ih (by simpa using hlen) (fun x hx => hne x (.tail _ hx))
            (fun x hx => hparts x (.tail _ hx))).mono ?_
          exact fun c hc => .tail _ hc

/-- What `put` stores in the leaf for a value. -/
def Placed (ps : Nat) (value : Bytes) (v : ValueRef) : Prop :=
  if inlineMax ps < value.length then ∃ head, v = .overflow head value.length
  else v = .inline value

/-- **PLACING A VALUE** never fails, and the value can be read back. -/
theorem placeValue_work (hs : Sound b L) (hps : 512 ≤ b.pageSize) (value : Bytes) :
    ∃ v b' L' W, placeValue value b = .ok v b' ∧ Work b L [] b' L' W
      ∧ ValueAt W b.pageSize v value ∧ Placed b.pageSize value v := by
  unfold placeValue
  rw [get_bind]
  by_cases hbig : inlineMax b.pageSize < value.length
  · rw [if_pos hbig]
    have hcap : 0 < overflowCapacity b.pageSize := by
      simp only [overflowCapacity, PAGE_HEADER_LEN]; omega
    obtain ⟨ids, b₁, L₁, hrun, hlen, hw₁, hown⟩ := allocateEach_work hs .overflow
      (chunks (overflowCapacity b.pageSize) value.length value)
    obtain ⟨b₂, hparts, hw₂⟩ := writeParts_work hw₁.sound hlen hw₁.holds hown
    have hne : ∀ id ∈ ids, id ≠ NIL_PAGE := fun id hid =>
      ne_nil_of_pageBytes hw₁.sound (Holds.pageBytes hw₁.holds (mem_map_of_mem hid))
    refine ⟨.overflow (ids.headD NIL_PAGE) value.length, b₂, L₁, _, ?_, hw₁.trans hw₂,
      ⟨rfl, _, overflowAt_chainCells hlen hne (chunks_length_le _ _ _),
        chunks_flatten hcap le_rfl, ?_⟩, ?_⟩
    · unfold writeOverflow
      rw [get_bind, bind_ok hrun, bind_ok hparts]
      rfl
    · exact (chunks_count hcap _ _).trans (le_max_left _ _)
    · rw [Placed, if_pos hbig]
      exact ⟨_, rfl⟩
  · rw [if_neg hbig]
    refine ⟨.inline value, b, L, [], rfl, Work.refl hs (Holds.nil _), rfl, ?_⟩
    rw [Placed, if_neg hbig]

end Write

end QuantyOverflow
