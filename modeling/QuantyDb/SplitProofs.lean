import QuantyDb.BtreeRunProofs

/-! # When an insertion fits

    A leaf is cut at the first cell that reaches half of its bytes, a branch at
    half of its separators.  Neither cut looks at what the halves weigh, so one
    of them can be too large for a page.  `splitsFit` reads off the tree, before
    the insertion, whether any node on the way down that has to be cut is cut
    into halves that fit; an insertion panics exactly when one is not. -/

namespace QuantySplit

open QuantyKey QuantyPage QuantyPager QuantyPagerInv QuantyBtree QuantyTree QuantyTreeMap List Fan
open AssocList
open Tree
open Pager
open QuantyTreeFits QuantyBtreeSim QuantyOverflow QuantyBtreeMap QuantyBtreeRun CowHeap

/-! ## The condition -/

/-- What separators take in a branch, first child and header included. -/
def branchSize (keys : List Key) : Nat :=
  PAGE_HEADER_LEN + (8 + (keys.map branchCellSize).sum)

/-- A leaf with these entries fits, or each of its halves does. -/
def leafRoom (ps : Nat) (es : List (Key × ValueRef)) : Bool :=
  decide (PAGE_HEADER_LEN + leafCells es ≤ ps)
    || (decide (2 ≤ es.length)
      && decide (PAGE_HEADER_LEN + leafCells (es.take (leafCut es)) ≤ ps)
      && decide (PAGE_HEADER_LEN + leafCells (es.drop (leafCut es)) ≤ ps))

/-- The key that a leaf with these entries sends up. -/
def leafUp (ps : Nat) (es : List (Key × ValueRef)) : Option Key :=
  if PAGE_HEADER_LEN + leafCells es ≤ ps then none else (es[leafCut es]?).map Prod.fst

/-- A branch with these separators fits, or each of its halves does. -/
def branchRoom (ps : Nat) (keys : List Key) : Bool :=
  decide (branchSize keys ≤ ps)
    || (decide (3 ≤ keys.length)
      && decide (branchSize (keys.take (branchCut keys.length)) ≤ ps)
      && decide (branchSize (keys.drop (branchCut keys.length + 1)) ≤ ps))

/-- The separator that a branch with these separators sends up. -/
def branchUp (ps : Nat) (keys : List Key) : Option Key :=
  if branchSize keys ≤ ps then none else keys[branchCut keys.length]?

/-- What comes up from a child joins the separators of a branch. -/
def joinUp (ps : Nat) (keys : Key → List Key) (x : Bool × Option Key) : Bool × Option Key :=
  match x.2 with
  | none => x
  | some sep => (x.1 && branchRoom ps (keys sep), branchUp ps (keys sep))

/-- Whether every node from the leaf for `key` up to here has room for what
    comes to it, and the separator that goes to the node above. -/
def climb (ps : Nat) (key : Key) (v : ValueRef) : Tree → Bool × Option Key
  | .leaf es => (leafRoom ps (put key v es), leafUp ps (put key v es))
  | .branch f es =>
      joinUp ps ((es.map Prod.fst).insertIdx (rank key es))
        (match rank key es with
          | 0 => climb ps key v f
          | i + 1 => climbAt es i)
where
  climbAt : List (Key × Tree) → Nat → Bool × Option Key
    | [], _ => (false, none)
    | (_, t) :: _, 0 => climb ps key v t
    | _ :: rest, i + 1 => climbAt rest i

/-- **THE CONDITION**: every node that has to be cut is cut into halves that
    fit, up to a new root over the last cut. -/
def splitsFit (ps : Nat) (key : Key) (v : ValueRef) : Option Tree → Bool
  | none => leafRoom ps [(key, v)]
  | some t => (climb ps key v t).1
      && (match (climb ps key v t).2 with
        | none => true
        | some sep => decide (branchSize [sep] ≤ ps))

/-- What a leaf holds for a value: whole, or as a reference of fixed size. -/
def valueCell (ps : Nat) (value : Bytes) : ValueRef :=
  if inlineMax ps < value.length then .overflow NIL_PAGE value.length else .inline value

/-! ## The condition on trees -/

section Trees

variable (ps : Nat) (key : Key) (v : ValueRef)

/-- In a branch it is the child that the key belongs to that is climbed from. -/
theorem climb_branch (f : Tree) (es : List (Key × Tree)) :
    climb ps key v (.branch f es)
      = joinUp ps ((es.map Prod.fst).insertIdx (rank key es))
          (climb ps key v (branchChild f es key)) := by
  rw [climb, branchChild]
  congr 1
  have hle := rank_le_length key es
  split
  next h0 => rw [h0]; rfl
  next i hi =>
    rw [hi]
    exact at_child (by simp [climb.climbAt]) (by simp [climb.climbAt]) f es (by omega)

theorem size_branch (f : Tree) (es : List (Key × Tree)) :
    (branch f es).size = branchSize (es.map Prod.fst) := by
  rw [size, branchCells_keys, branchSize]

/-- The cut of a leaf leaves something on its right. -/
theorem leafCut_lt {es : List (Key × ValueRef)} (h : 2 ≤ es.length) : leafCut es < es.length := by
  unfold leafCut
  omega

/-- The separator at the cut of a branch is there. -/
theorem branchCut_lt {n : Nat} (h : 3 ≤ n) : branchCut n < n := by
  unfold branchCut
  omega

/-- How an insertion ends, as the condition sees it. -/
def Matches (x : Bool × Option Key) : Inserted → Prop
  | .done _ => x = (true, none)
  | .split _ sep _ => x = (true, some sep)
  | .overrun => x.1 = false
  | .duplicate => False

/-- Two halves, as the condition sees them. -/
theorem halves_matches (l : Tree) (sep : Key) (r : Tree) :
    Matches (decide (l.size ≤ ps) && decide (r.size ≤ ps), some sep) (halves ps l sep r) := by
  unfold halves
  by_cases hboth : l.size ≤ ps ∧ r.size ≤ ps
  · rw [if_pos hboth, decide_eq_true hboth.1, decide_eq_true hboth.2]
    rfl
  · rw [if_neg hboth]
    show (_ && _) = false
    rw [← Bool.decide_and, decide_eq_false hboth]

/-- A leaf is closed as `leafRoom` and `leafUp` say. -/
theorem closeLeaf_matches (es : List (Key × ValueRef)) :
    Matches (leafRoom ps es, leafUp ps es) (closeLeaf ps es) := by
  unfold closeLeaf leafRoom leafUp
  by_cases hfit : (leaf es).size ≤ ps
  · have hfit' : PAGE_HEADER_LEN + leafCells es ≤ ps := hfit
    rw [if_pos hfit, if_pos hfit', decide_eq_true hfit', Bool.true_or]
    rfl
  · have hfit' : ¬ PAGE_HEADER_LEN + leafCells es ≤ ps := hfit
    rw [if_neg hfit, if_neg hfit', decide_eq_false hfit', Bool.false_or]
    by_cases hlen : es.length < 2
    · rw [if_pos hlen]
      show (_ && _ && _) = false
      rw [decide_eq_false (not_le.mpr hlen), Bool.false_and, Bool.false_and]
    · have hlt := leafCut_lt (not_lt.mp hlen)
      rw [if_neg hlen, getElem?_eq_getElem hlt, drop_eq_getElem_cons hlt]
      rw [decide_eq_true (not_lt.mp hlen), Bool.true_and]
      exact halves_matches ps _ _ _

/-- A branch is closed as `branchRoom` and `branchUp` say. -/
theorem closeBranch_matches (f : Tree) (es : List (Key × Tree)) :
    Matches (branchRoom ps (es.map Prod.fst), branchUp ps (es.map Prod.fst))
      (closeBranch ps f es) := by
  unfold closeBranch branchRoom branchUp
  rw [size_branch, length_map]
  by_cases hfit : branchSize (es.map Prod.fst) ≤ ps
  · rw [if_pos hfit, if_pos hfit, decide_eq_true hfit, Bool.true_or]
    rfl
  · rw [if_neg hfit, if_neg hfit, decide_eq_false hfit, Bool.false_or]
    by_cases hlen : es.length < 3
    · rw [if_pos hlen]
      show (_ && _ && _) = false
      rw [decide_eq_false (not_le.mpr hlen), Bool.false_and, Bool.false_and]
    · have hlt := branchCut_lt (not_lt.mp hlen)
      rw [if_neg hlen, getElem?_map, getElem?_eq_getElem hlt,
        drop_eq_getElem_cons hlt]
      rw [decide_eq_true (not_lt.mp hlen), Bool.true_and, ← map_take, ← map_drop,
        ← size_branch f, ← size_branch es[branchCut es.length].2]
      exact halves_matches ps _ _ _

/-- **THE CONDITION FOLLOWS THE INSERTION**. -/
theorem insert_matches (t : Tree) :
    Matches (climb ps key v t) (t.insert ps key v false) := by
  induction t using descend key with
  | hleaf es =>
      rw [climb, Tree.insert]
      exact closeLeaf_matches ps _
  | hbranch f es ih =>
      rw [climb_branch, insert_branch]
      cases hr : (branchChild f es key).insert ps key v false with
      | duplicate => rw [hr] at ih; exact ih.elim
      | done c =>
          rw [hr] at ih
          rw [show climb ps key v (branchChild f es key) = _ from ih]
          rfl
      | overrun =>
          rw [hr] at ih
          have hfalse : (climb ps key v (branchChild f es key)).1 = false := ih
          show (joinUp ps _ _).1 = false
          unfold joinUp
          split
          · exact hfalse
          · rw [hfalse, Bool.false_and]
      | split l sep r =>
          rw [hr] at ih
          rw [show climb ps key v (branchChild f es key) = _ from ih]
          have hkeys : ((setChild f es (rank key es) l).2.insertIdx (rank key es)
              (sep, r)).map Prod.fst = (es.map Prod.fst).insertIdx (rank key es) sep := by
            rw [map_insertIdx, keys_setChild]
          have hclose := closeBranch_matches ps (setChild f es (rank key es) l).1
            ((setChild f es (rank key es) l).2.insertIdx (rank key es) (sep, r))
          rw [hkeys] at hclose
          simpa [joinUp, graftChild] using hclose

/-- The insertion into a whole tree comes through exactly under the condition. -/
theorem insertTop_isSome (o : Option Tree) :
    (insertTop ps key v o).isSome = splitsFit ps key v o := by
  cases o with
  | none =>
      simp only [insertTop, splitsFit, leafRoom]
      by_cases hfit : (leaf [(key, v)]).size ≤ ps
      · have hfit' : PAGE_HEADER_LEN + leafCells [(key, v)] ≤ ps := hfit
        rw [if_pos hfit, decide_eq_true hfit', Bool.true_or]
        rfl
      · have hfit' : ¬ PAGE_HEADER_LEN + leafCells [(key, v)] ≤ ps := hfit
        rw [if_neg hfit, decide_eq_false hfit']
        rfl
  | some t =>
      have hm := insert_matches ps key v t
      simp only [insertTop, splitsFit, plant]
      cases hr : t.insert ps key v false with
      | duplicate => rw [hr] at hm; exact hm.elim
      | done c =>
          rw [hr] at hm
          rw [show climb ps key v t = _ from hm]
          rfl
      | overrun =>
          rw [hr] at hm
          rw [show (climb ps key v t).1 = false from hm]
          rfl
      | split l sep r =>
          rw [hr] at hm
          rw [show climb ps key v t = _ from hm]
          simp only [size_branch, map_cons, map_nil, Bool.true_and]
          by_cases hfit : branchSize [sep] ≤ ps
          · rw [if_pos hfit, decide_eq_true hfit]; rfl
          · rw [if_neg hfit, decide_eq_false hfit]; rfl

end Trees

/-! ## Only sizes matter -/

section Sizes

variable {ps : Nat} {key : Key} {v v' : ValueRef} {es es' : List (Key × ValueRef)}

/-- The keys of a leaf and what their cells take. -/
def cellSizes (es : List (Key × ValueRef)) : List (Key × Nat) :=
  es.map (fun e => (e.1, leafCellSize e.1 e.2))

theorem leafCells_congr (h : cellSizes es = cellSizes es') : leafCells es = leafCells es' := by
  have hsum : ∀ xs, leafCells xs = ((cellSizes xs).map Prod.snd).sum := fun xs => by
    simp [leafCells, cellSizes, Function.comp_def]
  rw [hsum, hsum, h]

theorem splitPoint_congr (h : cellSizes es = cellSizes es') (total i acc : Nat) :
    splitPoint total i acc es = splitPoint total i acc es' := by
  induction es generalizing es' i acc with
  | nil =>
      obtain rfl : es' = [] := by simpa [cellSizes] using h.symm
      rfl
  | cons e es ih =>
      cases es' with
      | nil => exact absurd h (by simp [cellSizes])
      | cons e' es' =>
          obtain ⟨hhead, htail⟩ := List.cons.inj h
          obtain ⟨hkey, hsize⟩ := Prod.mk.inj hhead
          obtain ⟨k, w⟩ := e
          obtain ⟨k', w'⟩ := e'
          simp only [splitPoint]
          rw [show leafCellSize k w = leafCellSize k' w' from hsize, ih htail]

theorem leafCut_congr (h : cellSizes es = cellSizes es') : leafCut es = leafCut es' := by
  have hlen : es.length = es'.length := by
    simpa [cellSizes] using congrArg List.length h
  rw [leafCut, leafCut, leafCells_congr h, splitPoint_congr h, hlen]

/-- The room in a leaf and the key it sends up are a matter of sizes. -/
theorem leafRoom_congr (ps : Nat) (h : cellSizes es = cellSizes es') :
    leafRoom ps es = leafRoom ps es' ∧ leafUp ps es = leafUp ps es' := by
  have hlen : es.length = es'.length := by
    simpa [cellSizes] using congrArg List.length h
  have hcut := leafCut_congr h
  have htake : cellSizes (es.take (leafCut es)) = cellSizes (es'.take (leafCut es')) := by
    rw [cellSizes, cellSizes, map_take, map_take, hcut]
    exact congrArg (List.take _) h
  have hdrop : cellSizes (es.drop (leafCut es)) = cellSizes (es'.drop (leafCut es')) := by
    rw [cellSizes, cellSizes, map_drop, map_drop, hcut]
    exact congrArg (List.drop _) h
  have hkey : (es[leafCut es]?).map Prod.fst = (es'[leafCut es']?).map Prod.fst := by
    have := congrArg (fun l => (l[leafCut es]?).map Prod.fst) h
    simpa [cellSizes, Function.comp_def, hcut] using this
  unfold leafRoom leafUp
  rw [leafCells_congr h, leafCells_congr htake, leafCells_congr hdrop, hlen, hkey]
  exact ⟨rfl, rfl⟩

/-- A value of the same size leaves the sizes of the leaf the same. -/
theorem cellSizes_put (h : leafCellSize key v = leafCellSize key v')
    (es : List (Key × ValueRef)) :
    cellSizes (put key v es) = cellSizes (put key v' es) := by
  induction es with
  | nil => simp [AssocList.put, cellSizes, h]
  | cons e es ih =>
      obtain ⟨k, w⟩ := e
      simp only [AssocList.put]
      split
      · exact congrArg (List.cons (k, leafCellSize k w)) ih
      · split <;> simp [cellSizes, h]

theorem climb_congr (h : leafCellSize key v = leafCellSize key v') (t : Tree) :
    climb ps key v t = climb ps key v' t := by
  induction t using descend key with
  | hleaf es =>
      obtain ⟨hroom, hup⟩ := leafRoom_congr ps (cellSizes_put h es)
      rw [climb, climb, hroom, hup]
  | hbranch f es ih => rw [climb_branch, climb_branch, ih]

/-- The condition sees of a value only what its cell takes. -/
theorem splitsFit_congr (h : leafCellSize key v = leafCellSize key v') (o : Option Tree) :
    splitsFit ps key v o = splitsFit ps key v' o := by
  cases o with
  | none => exact (leafRoom_congr ps (cellSizes_put h [])).1
  | some t => rw [splitsFit, splitsFit, climb_congr h]

/-- A placed value takes what `valueCell` says, wherever its pages are. -/
theorem leafCellSize_placed {value : Bytes} (h : Placed ps value v) :
    leafCellSize key v = leafCellSize key (valueCell ps value) := by
  unfold Placed at h
  unfold valueCell
  split at h
  · next hbig =>
    obtain ⟨head, rfl⟩ := h
    rw [if_pos hbig]
    rfl
  · next hbig => rw [if_neg hbig, h]

end Sizes

/-! ## The condition on calls -/

section Calls

variable {b : Batch} {L : FreePages} {o : Option Located}
  {V : List (PageId × Page)}

/-- The call gives the process up. -/
def Panics {α : Type} (r : EStateM.Result Error Batch α) : Prop :=
  ∃ what b', r = .error (.panic what) b'

/-- A call that plants what the tree model says panics where that has no tree. -/
theorem panics_iff_of_plantPost {key : Key} {C X : List (PageId × Page)}
    {r : EStateM.Result Error Batch PageId} {s : Option Tree} (h : PlantPost key b L C X r s) :
    Panics r ↔ s.isSome = false := by
  cases s with
  | none => exact iff_of_true h rfl
  | some s =>
      obtain ⟨t, b', L', rfl, -, -, -⟩ := h
      refine iff_of_false ?_ (by simp)
      rintro ⟨what, b'', hpanic⟩
      nomatch hpanic

theorem panics_thenTrue {m : BatchM PageId} : Panics (thenTrue m b) ↔ Panics (m b) := by
  unfold thenTrue
  cases hm : m b with
  | ok x b' =>
      rw [bind_ok hm]
      refine iff_of_false ?_ ?_ <;> exact fun ⟨_, _, h⟩ => nomatch h
  | error e b' =>
      rw [bind_error hm]
      constructor <;> rintro ⟨what, b'', h⟩ <;> cases h <;> exact ⟨what, _, rfl⟩

/-- A page that is missing or damaged is an error. -/
theorem readPage_no_panic (p : Pager) (id : PageId) (what : String) :
    p.readPage id ≠ .error (.panic what) := by
  unfold readPage
  split
  · nofun
  · split
    · nofun
    · next s hs =>
      cases hc : s.page.check id with
      | ok _ => nofun
      | error e =>
          unfold Page.check at hc
          split at hc
          · split at hc <;> cases hc; nofun
          · split at hc <;> cases hc; nofun
          · nomatch hc

theorem pageBytes_no_panic (b : Batch) (id : PageId) (what : String) :
    b.pageBytes id ≠ .error (.panic what) := by
  unfold Batch.pageBytes
  split
  · nofun
  · split
    · nofun
    · exact readPage_no_panic _ _ _

/-- Reads fail with errors, not with panics. -/
def Quiet (r : Reader) : Prop := ∀ page what, r.read page ≠ .error (.panic what)

/-- Reading through a batch, its dirty pages first. -/
theorem quiet_batchReader (b : Batch) : Quiet (batchReader b) :=
  fun page what => pageBytes_no_panic b page what

/-- A part of a value whose page is not one is an error as well. -/
theorem part_quiet {r : Reader} (hr : Quiet r) (page : PageId) (what : String) :
    r.part page ≠ .error (.panic what) := by
  rw [Reader.part]
  split
  · next e he =>
    intro h
    cases h
    exact hr page what he
  · split <;> rintro ⟨⟩
  · rintro ⟨⟩

/-- The walk adds no panic of its own. -/
theorem overflowLoop_quiet {r : Reader} {n : Nat} {page : PageId} {out : Bytes} (hr : Quiet r)
    (what : String) :
    overflowLoop r.part n page out ≠ .error (.panic what) := by
  induction n generalizing page out with
  | zero => rintro ⟨⟩
  | succ n ih =>
      rw [overflowLoop]
      split
      · rintro ⟨⟩
      · split
        · next e he =>
          intro h
          cases h
          exact part_quiet hr page what he
        · exact ih

/-- No vector can be as long as the reference says. -/
def Oversize : ValueRef → Prop
  | .inline _ => False
  | .overflow _ len => ISIZE_MAX < len

/-- **READING PANICS** on a length that no vector can have, and only there. -/
theorem readValue_panics_iff {r : Reader} (hr : Quiet r) (v : ValueRef) :
    (∃ what, readValue r v = .error (.panic what)) ↔ Oversize v := by
  cases v with
  | inline x =>
      refine iff_of_false ?_ id
      rintro ⟨what, h⟩
      cases h
  | overflow head len =>
      rw [readValue, readChain, Oversize]
      by_cases hlen : ISIZE_MAX < len
      · rw [if_pos hlen]
        exact iff_of_true ⟨_, rfl⟩ hlen
      · rw [if_neg hlen]
        refine iff_of_false ?_ hlen
        rintro ⟨what, h⟩
        split at h
        · next e he =>
          cases h
          exact overflowLoop_quiet hr what he
        · split at h <;> cases h

/-- **WHEN A LEGAL PUT PANICS**: over every tree whose nodes fit, a `put` runs
    off a page exactly when some node that it has to cut does not come apart
    in halves that fit; a `put_unique` likewise, on a key that is not there.  On
    one that is there it panics exactly when the value is too large for a leaf,
    so that the old one is read, and that one claims a length that no vector
    can have. -/
theorem put_panics_iff (key : Key) (value : Bytes) (hps : validPageSize b.pageSize = true)
    (hs : Sound b L)
    (hh : Holds (view b L) (cellsOf o ++ V)) (ho : ∀ t, o = some t → t.shape.InOrder)
    (hf : ∀ t, o = some t → t.shape.Fits b.pageSize) (hk : 0 < key.length)
    (hk' : key.length ≤ maxKeyLen b.pageSize) :
    (¬ Panics (put (rootOf o) key value b)
      ↔ splitsFit b.pageSize key (valueCell b.pageSize value) (o.map Located.shape) = true)
    ∧ (¬ Panics (putUnique (rootOf o) key value b)
      ↔ match topFind key (o.map Located.shape) with
        | none => splitsFit b.pageSize key (valueCell b.pageSize value) (o.map Located.shape) = true
        | some w => ¬ (inlineMax b.pageSize < value.length ∧ Oversize w)) := by
  have h512 := (le_of_validPageSize hps).1
  -- the tree-level outcome is the condition, whatever page the value went to
  have hcond : ∀ {v : ValueRef}, Placed b.pageSize value v →
      (insertTop b.pageSize key v (o.map Located.shape)).isSome
        = splitsFit b.pageSize key (valueCell b.pageSize value) (o.map Located.shape) :=
    fun hplaced => (insertTop_isSome _ _ _ _).trans
      (splitsFit_congr (leafCellSize_placed hplaced) _)
  constructor
  · obtain ⟨v, W, hplaced, -, hpost⟩ := put_post hs hh ho hf h512 hk hk' value
    rw [panics_iff_of_plantPost hpost, hcond hplaced, Bool.not_eq_false]
  · cases hfind : topFind key (o.map Located.shape) with
    | none =>
        obtain ⟨v, W, m, hplaced, -, hcall, hpost⟩ :=
          putUnique_absent hs hh ho hf h512 hk hk' value hfind
        rw [hcall, panics_thenTrue, panics_iff_of_plantPost hpost, hcond hplaced,
          Bool.not_eq_false]
    | some w =>
        have hreads := readValue_panics_iff (quiet_batchReader b) w
        refine not_congr ⟨?_, ?_⟩
        · rintro ⟨what, b', hpanic⟩
          rcases putUnique_found hs hh ho hf hk hk' value hfind with
            ⟨b₁, L₁, hcall, -⟩ | ⟨e, hbig, hread, hcall⟩
          · nomatch hcall.symm.trans hpanic
          · cases hcall.symm.trans hpanic
            exact ⟨hbig, hreads.mp ⟨what, hread⟩⟩
        · rintro ⟨hbig, hover⟩
          obtain ⟨what, hread⟩ := hreads.mpr hover
          refine ⟨what, b, ?_⟩
          rw [putUnique_reads hs (hh.sublist (sublist_append_left _ _)) ho hk' hbig hfind, hread]

end Calls

/-- A key of `n` equal bytes. -/
def repeated (n : Nat) (byte : UInt8) : Key := List.replicate n byte

theorem length_zeros : (List.replicate 128 (0 : UInt8)).length ≤ ISIZE_MAX := by
  rw [length_replicate]
  decide

/-- The longest value that a leaf of 512 bytes takes whole. -/
def zeros : Slice := ⟨List.replicate 128 0, length_zeros⟩

/-- So many entries in order, two of them to a leaf. -/
def evenPuts (n : Nat) : List Call :=
  (List.range n).map fun i => .put (repeated 64 (UInt8.ofNat (i + 1))) zeros

/-- Whether the children of the root are branches. -/
def overBranches : Option Tree → Bool
  | some (.branch (.branch _ _) _) => true
  | _ => false

/-- What is computed for `put_panics_iff_fourteen`. -/
def bothCut (key : Key) (root : PageId) (b : Batch) (o : Option Located) : Bool :=
  !overBranches (o.map Located.shape) && (topFind key (o.map Located.shape)).isNone
    && splitsFit 512 key (valueCell 512 zeros.1) (o.map Located.shape)
    && match put root key zeros.1 b with
      | .error _ _ => false
      | .ok root' b' => (readRoot b' root').any fun o' => overBranches (o'.map Located.shape)

/-- Fourteen entries are leaves under one root.  The next one cuts the last leaf
    and the root, each into halves that fit, and does not panic. -/
theorem put_panics_iff_fourteen :
    ∃ root answers b o root' b' o', runCalls (evenPuts 14) NIL_PAGE (initial 512 0).begin
        = .ok (root, answers) b
      ∧ readRoot b root = some o ∧ overBranches (o.map Located.shape) = false
      ∧ ¬ Panics (put root (repeated 64 15) zeros.1 b)
      ∧ ¬ Panics (putUnique root (repeated 64 15) zeros.1 b)
      ∧ put root (repeated 64 15) zeros.1 b = .ok root' b'
      ∧ readRoot b' root' = some o' ∧ overBranches (o'.map Located.shape) = true := by
  have hcheck : (match runCalls (evenPuts 14) NIL_PAGE (initial 512 0).begin with
      | .error _ _ => false
      | .ok x b => (readRoot b x.1).any (bothCut (repeated 64 15) x.1 b)) = true := by
    decide +kernel
  cases hrun : runCalls (evenPuts 14) NIL_PAGE (initial 512 0).begin with
  | error e b => rw [hrun] at hcheck; nomatch hcheck
  | ok x b =>
      obtain ⟨root, answers⟩ := x
      rw [hrun] at hcheck
      obtain ⟨o, hread, hcut⟩ := (Option.any_eq_true _ _).mp hcheck
      obtain ⟨⟨o', V, L, hroot, hw, hm⟩, -⟩ := runCalls_refined (evenPuts 14)
        (b := (initial 512 0).begin) (o := none) (V := []) (by decide)
        (sound_begin (freeListSound_initial 512 0)) (Holds.nil _) (shows_nil 512 []) hrun
      have hspells : Spells b root o' := ⟨hroot.symm, fun c hc =>
        Holds.pageBytes hw.holds (mem_append_left _ hc)⟩
      obtain rfl := (spells_of_readRoot hread).unique hw.sound hspells
      simp only [bothCut, Bool.and_eq_true, Bool.not_eq_true', Option.isNone_iff_eq_none] at hcut
      obtain ⟨⟨⟨hleaves, habsent⟩, hfits⟩, hput⟩ := hcut
      have hps : b.pageSize = 512 := hw.stays.pageSize
      have hiff := put_panics_iff (repeated 64 15) zeros.1 (by rw [hps]; decide) hw.sound hw.holds
        (inOrder_of_shows (hps ▸ hm)) (hps ▸ hm.fits) (by decide) (by rw [hps]; decide)
      rw [hps, habsent, ← hroot] at hiff
      cases hcall : put root (repeated 64 15) zeros.1 b with
      | error e b' => rw [hcall] at hput; nomatch hput
      | ok root' b' =>
          rw [hcall] at hput
          obtain ⟨o₁, hread₁, hover⟩ := (Option.any_eq_true _ _).mp hput
          exact ⟨root, answers, b, o, root', b', o₁, rfl, hread, hleaves, hiff.1.mpr hfits,
            hiff.2.mpr hfits, hcall, hread₁, hover⟩

/-- Three entries, of 173, 173 and 150 bytes, that share a page of 512. -/
def threePuts : List Call :=
  [.put (repeated 38 1) zeros, .put (repeated 38 2) zeros, .put (repeated 15 4) zeros]

/-- **A LEGAL PUT THAT RUNS OFF THE PAGE**: the fourth entry goes third, is cut
    off on the left, and the left half is 561 bytes. -/
theorem put_overruns :
    ∃ root b₁ b₂, runCalls threePuts NIL_PAGE (initial 512 0).begin
        = .ok (root, [true, true, true]) b₁
      ∧ (∃ o V m, root = rootOf o ∧ Shows 512 o V m)
      ∧ (repeated 64 3).length = maxKeyLen 512
      ∧ put root (repeated 64 3) (List.replicate 128 0) b₁
        = .error (.panic "range end index out of range for slice") b₂ := by
  have hcheck : (match runCalls threePuts NIL_PAGE (initial 512 0).begin with
      | .error _ _ => false
      | .ok x b₁ => decide (x.2 = [true, true, true])
          && (match put x.1 (repeated 64 3) (List.replicate 128 0) b₁ with
            | .ok _ _ => false
            | .error e _ =>
                decide (e = .panic "range end index out of range for slice"))) = true := by
    decide +kernel
  cases hrun : runCalls threePuts NIL_PAGE (initial 512 0).begin with
  | error e b₁ => rw [hrun] at hcheck; nomatch hcheck
  | ok x b₁ =>
      obtain ⟨⟨o, V, L, hroot, -, hm⟩, -⟩ := runCalls_refined threePuts
        (b := (initial 512 0).begin) (o := none) (V := []) (by decide)
        (sound_begin (freeListSound_initial 512 0)) (Holds.nil _) (shows_nil 512 []) hrun
      obtain ⟨root, answers⟩ := x
      rw [hrun] at hcheck
      simp only [Bool.and_eq_true, decide_eq_true_eq] at hcheck
      obtain ⟨rfl, hput⟩ := hcheck
      cases hcall : put root (repeated 64 3) (List.replicate 128 0) b₁ with
      | ok _ _ => rw [hcall] at hput; nomatch hput
      | error e b₂ =>
          rw [hcall] at hput
          obtain rfl := of_decide_eq_true hput
          exact ⟨root, b₁, b₂, rfl, ⟨o, V, _, hroot, hm⟩, by decide, hcall⟩

end QuantySplit
