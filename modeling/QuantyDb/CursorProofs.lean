import QuantyDb.CursorModel
import QuantyDb.NodeProofs
import QuantyDb.DbModel
import QuantyDb.BtreeMapProofs

/-! # A scan hands out the range and ends

    What an iterator still has to hand out is in its leaf and in the children
    its stack has not gone to.  `Pending` names both: the cells left in the
    leaf, and the trees the stack leads to, in order.

    Going down into a tree turns it into the cells of its first leaf and the
    trees beside the way (`descend_pending`); a call takes one cell off
    (`next_step`).  No call hands out anything else, so the answers are those
    of the range, and then there are none. -/

namespace QuantyCursor

open QuantyKey QuantyPage QuantyPager QuantyBtree QuantyTree QuantyTreeMap QuantyBtreeSim Located
open List.Forall₂
open Scan
open List hiding count
open Fan
open QuantyBtreeMap QuantyDatabase QuantyNode QuantyCodec

/-! ## Where a range starts -/

theorem leafFrom_cut {key : Key} {A B : List (Key × ValueRef)} (M : List (Key × ValueRef))
    (hA : ∀ e ∈ A, e.1 < key) (hB : ∀ e ∈ B, key < e.1) :
    leafFrom (some key) (A ++ (M ++ B)) = leafFrom (some key) M ++ B := by
  have hdropA : A.dropWhile (fun e => decide (e.1 < key)) = [] :=
    dropWhile_eq_nil_iff.mpr fun e he => decide_eq_true (hA e he)
  have hdropB : B.dropWhile (fun e => decide (e.1 < key)) = B := by
    cases B with
    | nil => rfl
    | cons e rest =>
        refine dropWhile_cons_of_neg ?_
        simpa using le_of_lt (hB e (mem_cons_self ..))
  simp only [leafFrom]
  rw [dropWhile_append, hdropA, isEmpty_nil, if_pos rfl, dropWhile_append]
  split
  · next hempty => rw [isEmpty_iff.mp hempty, hdropB, nil_append]
  · rfl

variable {pg : PageId} {f t : Located} {es : List (Key × ValueRef)} {src : ReadPages}

/-- **WHERE A SCAN STARTS** in a branch: in one child, and all of the children
    after it. -/
theorem leafFrom_branch {es : List (Key × Located)} (ho : (branch pg f es).shape.Ordered)
    (start : Option Key) : leafFrom start (branch pg f es).shape.entries
      = leafFrom start (child f es
          (firstIdx start (es.map (Prod.map id page)))).shape.entries
        ++ (es.drop (firstIdx start (es.map (Prod.map id page)))).flatMap
          (fun e => e.2.shape.entries) := by
  have hentries : ∀ l : List (Key × Located),
      (l.map (Prod.map id shape)).flatMap (fun e => e.2.entries)
        = l.flatMap (fun e => e.2.shape.entries) := fun l => flatMap_map ..
  rw [shape_branch] at ho ⊢
  cases start with
  | none =>
      rw [entries_branch, slots, flatMap_cons, flatMap_map, hentries]
      rfl
  | some key =>
      obtain ⟨pre, s, hc, hbelow, habove⟩ := route ho key
      have hi : firstIdx (some key) (es.map (Prod.map id page)) = rank key es :=
        rank_map ..
      rw [rank_map] at hc habove
      rw [hi, entries_cut hc, child_map, leafFrom_cut _ (unmark_below hbelow)
        (unmark_above habove), unmark_slotMarks, ← map_drop, flatMap_map, hentries]

theorem firstIdx_le (start : Option Key) (es : List (Key × Located)) :
    firstIdx start (es.map (Prod.map id page)) ≤ es.length := by
  cases start with
  | none => exact Nat.zero_le _
  | some key =>
      have h := rank_le_length key (es.map (Prod.map id page))
      rwa [length_map] at h

/-! ## Trees in pages -/

/-- The pages of a tree read, and decode to its nodes. -/
def Readable (src : ReadPages) (t : Located) : Prop :=
  ∀ id n, (id, Page.node n) ∈ t.pages →
    ∃ buf, src.read id = .ok buf ∧ PAGE_HEADER_LEN ≤ buf.length ∧ decode buf id = .ok n

/-- A tree that a scan can go down. -/
structure Walkable (src : ReadPages) (fuel : Nat) (t : Located) : Prop where
  readable : Readable src t
  ordered : t.shape.Ordered
  height : t.height ≤ fuel

/-- How many nodes trees have. -/
def weight (ts : List Located) : Nat := (ts.map (fun t => t.pages.length)).sum

/-- The entries of trees one after another. -/
def entriesOfAll (ts : List Located) : List (Key × ValueRef) :=
  ts.flatMap (fun t => t.shape.entries)

variable {depth : Nat} {buf : Bytes}

section Trees

variable {src : ReadPages} {fuel : Nat} {pg : PageId} {f : Located} {es : List (Key × Located)}

theorem weight_append (ts us : List Located) : weight (ts ++ us) = weight ts + weight us := by
  simp [weight]

theorem length_pages_branch :
    (branch pg f es).pages.length = weight (f :: es.map Prod.snd) + 1 := by
  rw [pages_branch, slots, slotPages_cons]
  simp [weight, slotPages, length_flatMap, Function.comp_def]

/-- A child of a tree that can be walked can be walked, one step shorter. -/
theorem Walkable.slot (h : Walkable src (fuel + 1) (.branch pg f es))
    (ht : t ∈ f :: es.map Prod.snd) : Walkable src fuel t := by
  obtain ⟨s, hs, rfl⟩ : ∃ s ∈ slots f es, s.2 = t := by
    rcases mem_cons.mp ht with rfl | hmem
    · exact ⟨(none, t), (.head _), rfl⟩
    · obtain ⟨e, he, rfl⟩ := mem_map.mp hmem
      exact ⟨(some e.1, e.2), mem_cons_of_mem _ (mem_map_of_mem he), rfl⟩
  have ho := h.ordered
  rw [shape_branch] at ho
  refine ⟨?_, ?_, ?_⟩
  · intro id n hn
    refine h.readable id n ?_
    rw [pages_branch]
    exact .tail _ (mem_flatMap.mpr ⟨s, hs, hn⟩)
  · rcases mem_cons.mp ht with heq | hmem
    · exact heq ▸ ordered_first ho
    · obtain ⟨e, he, heq⟩ := mem_map.mp hmem
      exact heq ▸ ordered_entry ho (mem_map_of_mem he)
  · have hlow := (height_slots pg f es).1 s hs
    have := h.height
    omega

theorem Walkable.mono (h : Walkable src fuel t) (hle : fuel ≤ depth) : Walkable src depth t :=
  ⟨h.readable, h.ordered, Nat.le_trans h.height hle⟩

end Trees

/-! ## What is still to come -/

/-- A branch of the stack and the children it has not gone to. -/
structure FrameOk (src : ReadPages) (fuel : Nat) (frame : Bytes × Nat × Nat) (ts : List Located) :
    Prop where
  left : frame.2.1 + ts.length = frame.2.2 + 1
  child : ∀ j t, ts[j]? = some t → branchChildAt frame.1 (frame.2.1 + j) = .ok t.page
  walkable : ∀ t ∈ ts, Walkable src fuel t

/-- The trees that a stack leads to, in order. -/
def Stacked (src : ReadPages) (fuel : Nat) (stack : List (Bytes × Nat × Nat))
    (ts : List Located) : Prop :=
  ∃ rests, List.Forall₂ (FrameOk src fuel) stack rests ∧ rests.flatten = ts

/-- The cells left in the leaf. -/
def Cells (s : Scan) (es : List (Key × ValueRef)) : Prop :=
  (s.leafLeft = 0 ∧ es = []) ∨
    ∃ buf page, s.leaf = some (buf, page) ∧ s.leafAt ≤ buf.length
      ∧ readCells (readLeafCell page) s.leafLeft (buf.drop s.leafAt) = .ok es

structure Pending (src : ReadPages) (fuel : Nat) (s : Scan) (es : List (Key × ValueRef))
    (ts : List Located) : Prop where
  cells : Cells s es
  stacked : Stacked src fuel s.stack ts

section Steps

variable {src : ReadPages} {fuel : Nat} {s : Scan} {es : List (Key × ValueRef)} {ts : List Located}

theorem Cells.length (h : Cells s es) : es.length = s.leafLeft := by
  rcases h with ⟨hleft, rfl⟩ | ⟨buf, page, -, -, hcells⟩
  · exact hleft.symm
  · exact length_readCells hcells

/-! ## Going down -/

/-- **ENTERING A LEAF** steps over the cells below the start. -/
theorem leafStart_spec {page : PageId} (hhead : PAGE_HEADER_LEN ≤ buf.length)
    (hes : readCells (readLeafCell page) (count buf) (buf.drop PAGE_HEADER_LEN) = .ok es)
    (start : Option Key) : ∃ off left, leafStart buf page start = .ok (off, left) ∧ off ≤ buf.length
      ∧ readCells (readLeafCell page) left (buf.drop off) = .ok (leafFrom start es) := by
  cases start with
  | none => exact ⟨_, _, rfl, hhead, hes⟩
  | some key =>
      rw [leafStart]
      revert hes
      generalize count buf = n
      generalize PAGE_HEADER_LEN = off at hhead
      intro hes
      induction n generalizing off es with
      | zero =>
          cases hes
          exact ⟨off, 0, rfl, hhead, rfl⟩
      | succ n ih =>
          rcases leafCellAt_cases page hhead with ⟨e, -, hdec⟩ | ⟨c, e, rest, hin, hdec, hat⟩
          · rw [readCells, hdec] at hes
            cases hes
          · have hall := hes
            rw [readCells, hdec] at hes
            obtain ⟨es', hrest, rfl⟩ := exists_map_cons.mp ⟨es, hes, rfl⟩
            have hkey : keyIn buf c.key = e.1 := congrArg Prod.fst hat.entry
            rw [skipBelow, hin]
            dsimp only
            rw [hkey]
            by_cases hle : key ≤ e.1
            · rw [if_pos hle, leafFrom, dropWhile_cons_of_neg (by simpa using hle)]
              exact ⟨off, n + 1, rfl, hhead, hall⟩
            · rw [if_neg hle, leafFrom, dropWhile_cons_of_pos (by simpa using hle)]
              exact ih _ hat.next (hat.rest ▸ hrest)

/-- The frame of a branch that was gone into at an index. -/
theorem frameOk_branch {es : List (Key × Located)} (h : Walkable src (fuel + 1) (.branch pg f es))
    (hdecode : decode buf pg = .ok (branch pg f es).node) {i : Nat} (hi : i ≤ es.length)
    (hdepth : fuel ≤ depth) :
    FrameOk src depth (buf, i + 1, count buf) ((es.drop i).map Prod.snd) := by
  rw [node] at hdecode
  have hcount : count buf = es.length := by
    obtain ⟨-, cur, -, hcells, -⟩ := decode_branch_iff.mp hdecode
    have := length_readCells hcells
    rwa [length_map, eq_comm] at this
  refine ⟨?_, ?_, ?_⟩
  · show i + 1 + ((es.drop i).map Prod.snd).length = count buf + 1
    rw [length_map, length_drop, hcount]
    omega
  · intro j t ht
    show branchChildAt buf (i + 1 + j) = _
    rw [getElem?_map, getElem?_drop] at ht
    obtain ⟨e, he, rfl⟩ := Option.map_eq_some_iff.mp ht
    have hlt := (List.getElem?_eq_some_iff.mp he).1
    have hle : i + 1 + j ≤ (es.map (Prod.map id page)).length := by
      rw [length_map]
      omega
    rw [branchChildAt_eq hdecode hle, child_map, Nat.add_right_comm, child, he]
    rfl
  · intro t ht
    refine (h.slot (mem_cons_of_mem _ ?_)).mono hdepth
    obtain ⟨e, he, rfl⟩ := mem_map.mp ht
    exact mem_map_of_mem (mem_of_mem_drop he)

/-- Going down into a tree leads to its first leaf from the start on, and
    stacks the trees beside the way. -/
def GoesDown (src : ReadPages) (start : Option Key) (t : Located) : Prop :=
  ∀ (fuel depth : Nat) (s : Scan) (ts : List Located), Walkable src fuel t → fuel ≤ depth →
    Stacked src depth s.stack ts →
    ∃ s' es beside, descend src start fuel t.page s = .ok () s'
      ∧ Pending src depth s' es (beside ++ ts) ∧ s'.stop = s.stop ∧ s'.failed = s.failed
      ∧ es ++ entriesOfAll beside = leafFrom start t.shape.entries
      ∧ weight beside < t.pages.length

/-- **GOING DOWN** a tree. -/
theorem descend_pending (start : Option Key) (t : Located) : GoesDown src start t := by
  induction t using Located.induct with
  | hleaf pg es =>
      intro fuel depth s ts h hdepth hstack
      have hfuel := h.height
      rw [height_leaf] at hfuel
      obtain ⟨fuel, rfl⟩ : ∃ n, fuel = n + 1 := ⟨fuel - 1, by omega⟩
      obtain ⟨buf, hread, hhead, hdecode⟩ := h.readable pg _ (mem_pages (.leaf pg es))
      obtain ⟨hkind, hcells, -⟩ := decode_leaf_iff.mp hdecode
      obtain ⟨off, left, hstart, hoff, hfrom⟩ := leafStart_spec hhead hcells start
      refine ⟨{ s with leaf := some (buf, pg), leafAt := off, leafLeft := left }, leafFrom start es,
        [], ?_, ⟨.inr ⟨buf, pg, rfl, hoff, hfrom⟩, hstack⟩, rfl, rfl, ?_, ?_⟩
      · rw [page, descend, hread]
        dsimp only
        rw [hkind]
        dsimp only
        rw [hstart]
      · rw [shape_leaf, entries_leaf]
        exact append_nil _
      · rw [pages_leaf]
        exact Nat.one_pos
  | hbranch pg f es ihf ihes =>
      intro fuel depth s ts h hdepth hstack
      obtain ⟨hlow, -⟩ := height_slots pg f es
      obtain ⟨fuel, rfl⟩ : ∃ n, fuel = n + 1 :=
        ⟨fuel - 1, by have := hlow _ mem_cons_self; have := h.height; omega⟩
      obtain ⟨buf, hread, -, hdecode⟩ := h.readable pg _ (mem_pages (.branch pg f es))
      have hi := firstIdx_le start es
      have hfrom := leafFrom_branch h.ordered start
      have hidx : childIdx buf start
          = .ok (firstIdx start (es.map (Prod.map id page))) := by
        cases start with
        | none => rfl
        | some key => exact branchRank_eq hdecode key
      generalize firstIdx start (es.map (Prod.map id page)) = i at hi hfrom hidx
      have hframe := frameOk_branch h hdecode hi (Nat.le_of_succ_le hdepth)
      -- the children are the one gone into, those before it and those after it
      have hdrop := drop_children f es hi
      have hmem : child f es i ∈ f :: es.map Prod.snd :=
        mem_of_mem_drop (hdrop ▸ mem_cons_self)
      have hchild : branchChildAt buf i = .ok (child f es i).page := by
        have := branchChildAt_eq hdecode (i := i) (by rwa [length_map])
        rwa [child_map] at this
      obtain ⟨rests, hrests, rfl⟩ := hstack
      have hdown : GoesDown src start (child f es i) := child_of_forall ihf ihes i
      obtain ⟨s', cells, beside, hrun, hpend, hstop, hfailed, hout, hweight⟩ :=
        hdown fuel depth { s with stack := (buf, i + 1, count buf) :: s.stack } _
          (h.slot hmem) (Nat.le_of_succ_le hdepth) ⟨_, cons hframe hrests, rfl⟩
      refine ⟨s', cells, beside ++ (es.drop i).map Prod.snd, ?_, ?_, hstop, hfailed, ?_, ?_⟩
      · obtain ⟨hkind, -⟩ := decode_branch_iff.mp hdecode
        rw [page, descend, hread]
        dsimp only
        rw [hkind]
        dsimp only
        rw [hidx]
        dsimp only
        rw [hchild]
        exact hrun
      · rwa [append_assoc]
      · rw [hfrom, ← hout, entriesOfAll, flatMap_append, flatMap_map, ← entriesOfAll,
          append_assoc]
      · have hsum : weight ((f :: es.map Prod.snd).drop i) ≤ weight (f :: es.map Prod.snd) := by
          conv_rhs => rw [← take_append_drop i (f :: es.map Prod.snd), weight_append]
          exact Nat.le_add_left _ _
        rw [hdrop, weight, map_cons, sum_cons, ← weight] at hsum
        rw [length_pages_branch, weight_append]
        omega

/-! ## Going on -/

/-- **THE NEXT LEAF**: the next tree that the stack leads to, gone into; none
    when there is no such tree. -/
theorem advanceFrom_pending {stack : List (Bytes × Nat × Nat)}
    (hstack : Stacked src depth stack ts) :
    (ts = [] ∧ advanceFrom src depth s stack = .ok false { s with stack := [] }) ∨
    ∃ t rest s' es beside, ts = t :: rest ∧ advanceFrom src depth s stack = .ok true s'
      ∧ Pending src depth s' es (beside ++ rest) ∧ s'.stop = s.stop ∧ s'.failed = s.failed
      ∧ es ++ entriesOfAll beside = t.shape.entries ∧ weight beside < t.pages.length := by
  obtain ⟨rests, hrests, rfl⟩ := hstack
  induction hrests with
  | nil => exact .inl ⟨rfl, rfl⟩
  | @cons frame trees below rests hframe hbelow ih =>
      obtain ⟨buf, next, entries⟩ := frame
      have hleft := hframe.left
      dsimp only at hleft
      rw [advanceFrom]
      cases trees with
      | nil =>
          rw [if_pos (show entries < next from hleft.ge)]
          exact ih
      | cons t trees =>
          have hnext : ¬ entries < next := by
            rw [length_cons] at hleft
            omega
          have hchild : branchChildAt buf next = .ok t.page := hframe.child 0 t rfl
          have hrest : FrameOk src depth (buf, next + 1, entries) trees := by
            refine ⟨?_, ?_, fun t' ht' => hframe.walkable t' (mem_cons_of_mem t ht')⟩
            · rw [length_cons] at hleft
              show next + 1 + trees.length = entries + 1
              omega
            · intro j t' ht'
              have := hframe.child (j + 1) t' ht'
              rwa [Nat.add_comm j 1, ← Nat.add_assoc] at this
          obtain ⟨s', es, beside, hrun, hpend, hstop, hfailed, hout, hweight⟩ :=
            descend_pending none t depth depth
              { s with stack := (buf, next + 1, entries) :: below } _ (hframe.walkable t (.head _))
                le_rfl
              ⟨_, cons hrest hbelow, rfl⟩
          rw [if_neg hnext, hchild]
          dsimp only
          rw [hrun]
          exact .inr ⟨t, _, s', es, beside, rfl, rfl, hpend, hstop, hfailed, hout, hweight⟩

/-- **TO A LEAF WITH A CELL**: whatever is passed over on the way is empty. -/
theorem seekCell_pending (h : Pending src depth s es ts) (hfuel : weight ts < fuel) :
    ∃ s' es' ts', seekCell src depth fuel s = .ok (!es'.isEmpty) s' ∧ Pending src depth s' es' ts'
      ∧ s'.stop = s.stop ∧ s'.failed = s.failed
      ∧ es' ++ entriesOfAll ts' = es ++ entriesOfAll ts ∧ (es' = [] → ts' = [])
      ∧ weight ts' ≤ weight ts := by
  induction fuel generalizing s es ts with
  | zero => exact absurd hfuel (Nat.not_lt_zero _)
  | succ fuel ih =>
      have hlen := h.cells.length
      rw [seekCell]
      dsimp only
      by_cases hleft : s.leafLeft = 0
      · obtain rfl : es = [] := length_eq_zero_iff.mp (hlen.trans hleft)
        rw [if_pos hleft, advanceLeaf]
        rcases advanceFrom_pending (s := s) h.stacked with
          ⟨rfl, hrun⟩ | ⟨t, rest, s', es', beside, rfl, hrun, hpend, hstop, hfailed, hout, hweight⟩
        · rw [hrun]
          exact ⟨_, [], [], rfl, ⟨.inl ⟨hleft, rfl⟩, [], nil, rfl⟩, rfl, rfl, rfl,
            fun _ => rfl, le_rfl⟩
        · rw [hrun]
          dsimp only
          have hless : weight (beside ++ rest) < weight (t :: rest) := by
            rw [weight_append, weight, weight, weight, map_cons, sum_cons, ← weight]
            omega
          obtain ⟨s'', es'', ts'', hseek, hpend'', hstop'', hfailed'', hout'', hnone, hweight''⟩ :=
            ih hpend (by omega)
          refine ⟨s'', es'', ts'', hseek, hpend'', hstop''.trans hstop, hfailed''.trans hfailed, ?_,
            hnone, by omega⟩
          rw [hout'', nil_append, entriesOfAll, flatMap_append, ← append_assoc,
            ← entriesOfAll, hout]
          rfl
      · have hne : es ≠ [] := by
          rintro rfl
          exact hleft hlen.symm
        rw [if_neg hleft]
        refine ⟨s, es, ts, ?_, h, rfl, rfl, rfl, fun hnil => absurd hnil hne, le_rfl⟩
        rw [show es.isEmpty = false by simpa using hne]
        rfl

/-- The first cell left in the leaf, and the leaf without it. -/
theorem Cells.cons {e : Key × ValueRef} (h : Cells s (e :: es)) :
    ∃ buf page c, s.leaf = some (buf, page) ∧ leafCellAt buf s.leafAt page = .ok c
      ∧ c.resolve buf = e ∧ Cells { s with leafAt := c.next, leafLeft := s.leafLeft - 1 } es := by
  have hlen := h.length
  rcases h with ⟨-, hnil⟩ | ⟨buf, page, hleaf, hat, hcells⟩
  · cases hnil
  · rw [← hlen, length_cons, readCells] at hcells
    rcases leafCellAt_cases page hat with ⟨err, -, hdec⟩ | ⟨c, e', rest, hin, hdec, hcell⟩
    · rw [hdec] at hcells
      cases hcells
    · rw [hdec] at hcells
      obtain ⟨es', hrest, heq⟩ := exists_map_cons.mp ⟨_, hcells, rfl⟩
      cases heq
      refine ⟨buf, page, c, hleaf, hin, hcell.entry, .inr ⟨buf, page, hleaf, hcell.next, ?_⟩⟩
      show readCells (readLeafCell page) (s.leafLeft - 1) (buf.drop c.next) = .ok es
      rw [← hlen, hcell.rest]
      exact hrest

end Steps

/-! ## Calls -/

/-- The value that a reference stands for. -/
def resolve (src : ReadPages) : ValueRef → Except Error Bytes
  | .inline v => .ok v
  | .overflow head len => readChain src.part src.pageSize head len

theorem readCell_eq (src : ReadPages) (buf : Bytes) (v : CellValue) :
    readCell src buf v = resolve src (v.resolve buf) := by
  cases v <;> rfl

/-- Entries with their values; an error is the last thing handed out. -/
def handedOut (src : ReadPages) : List (Key × ValueRef) → List (Except Error (Key × Bytes))
  | [] => []
  | e :: rest =>
      match resolve src e.2 with
      | .error err => [.error err]
      | .ok v => .ok (e.1, v) :: handedOut src rest

/-- The entries before the end of a range. -/
def before (stop : Option Key) (es : List (Key × ValueRef)) : List (Key × ValueRef) :=
  es.takeWhile (fun e => !stop.any (fun s => decide (s ≤ e.1)))

/-- What an iterator hands out from where it stands. -/
def Yields (src : ReadPages) (fuel : Nat) (s : Scan) (out : List (Except Error (Key × Bytes))) :
    Prop :=
  (s.failed = true ∧ out = []) ∨
    (s.failed = false ∧ ∃ es ts, Pending src fuel s es ts ∧ weight ts < fuel
      ∧ out = handedOut src (before s.stop (es ++ entriesOfAll ts)))

section Calls

variable {src : ReadPages} {fuel : Nat} {s : Scan} {out : List (Except Error (Key × Bytes))}

/-- The first cell is handed out, or is past the end of the range. -/
theorem handOut_step {ts : List Located} {c : LeafCell} {rest : List (Key × ValueRef)}
    (h : Pending src fuel s (c.resolve buf :: rest) ts)
    (hrest : Cells { s with leafAt := c.next, leafLeft := s.leafLeft - 1 } rest)
    (hweight : weight ts < fuel) (hfailed : s.failed = false) : (s.handOut src buf c).1
        = (handedOut src (before s.stop (c.resolve buf :: rest ++ entriesOfAll ts))).head?
      ∧ Yields src fuel (s.handOut src buf c).2
        (handedOut src (before s.stop (c.resolve buf :: rest ++ entriesOfAll ts))).tail := by
  rw [handOut]
  by_cases hstop : s.stop.any (fun stop => decide (stop ≤ keyIn buf c.key)) = true
  · have hpast : s.stop.any (fun s => decide (s ≤ (c.resolve buf).1)) = true := hstop
    have hnil : before s.stop (c.resolve buf :: rest ++ entriesOfAll ts) = [] :=
      takeWhile_cons_of_neg (by rw [hpast]; exact nofun)
    rw [if_pos hstop, hnil]
    exact ⟨rfl, .inr ⟨hfailed, _, ts, h, hweight, by rw [hnil]; rfl⟩⟩
  · have hinside : s.stop.any (fun s => decide (s ≤ (c.resolve buf).1)) = false :=
      Bool.eq_false_iff.mpr hstop
    have hcons : before s.stop (c.resolve buf :: rest ++ entriesOfAll ts)
        = c.resolve buf :: before s.stop (rest ++ entriesOfAll ts) :=
      takeWhile_cons_of_pos (by rw [hinside]; rfl)
    have hvalue : (c.resolve buf).2 = c.value.resolve buf := rfl
    rw [if_neg hstop, hcons, handedOut, readCell_eq, hvalue]
    dsimp only
    cases hread : resolve src (c.value.resolve buf) with
    | error e => exact ⟨rfl, .inl ⟨rfl, rfl⟩⟩
    | ok v => exact ⟨rfl, .inr ⟨hfailed, rest, ts, ⟨hrest, h.stacked⟩, hweight, rfl⟩⟩

/-- **ONE CALL** answers with the first of what is to come, and leaves the
    rest. -/
theorem next_step (h : Yields src fuel s out) :
    (s.next src fuel).1 = out.head? ∧ Yields src fuel (s.next src fuel).2 out.tail := by
  rcases h with ⟨hfailed, rfl⟩ | ⟨hfailed, es, ts, hpend, hweight, rfl⟩
  · rw [Scan.next, if_pos hfailed]
    exact ⟨rfl, .inl ⟨hfailed, rfl⟩⟩
  · obtain ⟨s', es', ts', hseek, hpend', hstop, hfailed', hout, hnone, hweight'⟩ :=
      seekCell_pending hpend hweight
    have hfalse : s'.failed = false := hfailed'.trans hfailed
    rw [← hout, ← hstop]
    cases es' with
    | nil =>
        -- nothing is left, and the iterator stays where it is
        obtain rfl := hnone rfl
        have hnext : s.next src fuel = (none, s') := by
          rw [Scan.next, if_neg (by simp [hfailed]), hseek]
          rfl
        rw [hnext]
        exact ⟨rfl, .inr ⟨hfalse, [], [], hpend', by omega, rfl⟩⟩
    | cons e rest =>
        obtain ⟨buf, page, c, hleaf, hcell, rfl, hcells⟩ := hpend'.cells.cons
        have hnext : s.next src fuel = s'.handOut src buf c := by
          rw [Scan.next, if_neg (by simp [hfailed]), hseek]
          simp only [isEmpty_cons, Bool.not_false, hleaf, hcell]
        rw [hnext]
        exact handOut_step hpend' hcells (by omega) hfalse

/-- **CALL AFTER CALL** the answers are what is to come, and then none. -/
theorem answer_eq (h : Yields src fuel s out) (n : Nat) : s.answer src fuel n = out[n]? := by
  induction n generalizing s out with
  | zero => rw [answer, (next_step h).1, head?_eq_getElem?]
  | succ n ih => rw [answer, ih (next_step h).2, getElem?_tail]

end Calls

/-! ## The range -/

/-- In a range, or not. -/
def inBounds (start stop : Option Key) (key : Key) : Bool :=
  start.all (fun s => decide (s ≤ key)) && stop.all (fun s => decide (key < s))

/-- Entries in order: those of a range are the ones from its start on and
    before its end. -/
theorem before_leafFrom (hs : AssocList.Sorted es) (start stop : Option Key) :
    before stop (leafFrom start es) = es.filter (fun e => inBounds start stop e.1) := by
  have hfrom : leafFrom start es = es.filter (fun e => start.all (fun s => decide (s ≤ e.1))) := by
    cases start with
    | none => exact (filter_eq_self.mpr fun _ _ => rfl).symm
    | some key =>
        rw [leafFrom, AssocList.dropWhile_eq_filter]
        · refine filter_congr ?_
          intro e _
          rw [Option.all_some, ← decide_not]
          exact decide_eq_decide.mpr not_lt
        · refine hs.imp ?_
          intro a b hab hb
          simpa using hab.trans (by simpa using hb)
  have hsorted : AssocList.Sorted (leafFrom start es) := by
    rw [hfrom]
    exact hs.sublist filter_sublist
  rw [before, AssocList.takeWhile_eq_filter, hfrom, filter_filter]
  · refine filter_congr ?_
    intro e _
    cases stop with
    | none => simp [inBounds]
    | some last =>
        have hlast : (!decide (last ≤ e.1)) = decide (e.1 < last) := by
          rw [← decide_not]
          exact decide_eq_decide.mpr not_le
        rw [inBounds, Option.any_some, Option.all_some, hlast, Bool.and_comm]
  · refine hsorted.imp ?_
    intro a b hab hb
    cases stop with
    | none => rfl
    | some last =>
        simp only [Option.any_some, Bool.not_eq_true', decide_eq_false_iff_not, not_le] at hb ⊢
        exact hab.trans hb

theorem handedOut_ok {val : Key × ValueRef → Bytes} (h : ∀ e ∈ es, resolve src e.2 = .ok (val e)) :
    handedOut src es = es.map (fun e => .ok (e.1, val e)) := by
  induction es with
  | nil => rfl
  | cons e rest ih =>
      rw [handedOut, h e (.head _), map_cons,
        ← ih fun e' he' => h e' (mem_cons_of_mem e he')]

/-- The tree of a root, if there is one, in pages that read. -/
structure Stored (src : ReadPages) (o : Option Located) : Prop where
  readable : ∀ t ∈ o, Readable src t
  ordered : ∀ t ∈ o, t.shape.Ordered
  named : ∀ t ∈ o, t.page ≠ NIL_PAGE

/-- How deep the tree is and how many nodes it has. -/
def fuelFor : Option Located → Nat
  | none => 1
  | some t => t.height + t.pages.length + 1

/-- A new iterator has the range before it. -/
theorem new_yields {o : Option Located} (h : Stored src o) (start stop : Option Key) {fuel : Nat}
    (hfuel : fuelFor o ≤ fuel) : ∃ s, new src fuel (rootOf o) start stop = .ok s
      ∧ Yields src fuel s (handedOut src
        ((entriesOf o).filter (fun e => inBounds start stop e.1))) := by
  cases o with
  | none =>
      refine ⟨⟨[], none, PAGE_HEADER_LEN, 0, stop, false⟩, rfl,
        .inr ⟨rfl, [], [], ⟨.inl ⟨rfl, rfl⟩, [], nil, rfl⟩, ?_, rfl⟩⟩
      exact Nat.lt_of_lt_of_le Nat.one_pos hfuel
  | some t =>
      rw [fuelFor] at hfuel
      have ho := h.ordered t rfl
      obtain ⟨s, es, beside, hrun, hpend, hstop, hfailed, hout, hweight⟩ :=
        descend_pending start t fuel fuel ⟨[], none, PAGE_HEADER_LEN, 0, stop, false⟩ []
          ⟨h.readable t rfl, ho, by omega⟩ le_rfl ⟨[], nil, rfl⟩
      refine ⟨s, ?_, .inr ⟨hfailed, es, beside ++ [], hpend, ?_, ?_⟩⟩
      · rw [new, if_neg (show rootOf (some t) ≠ NIL_PAGE from h.named t rfl)]
        rw [show rootOf (some t) = t.page from rfl, hrun]
      · rw [append_nil]
        omega
      · have hall : entriesOf (some t) = t.shape.entries := rfl
        rw [append_nil, hout, hstop, before_leafFrom (sorted_entries ho), hall]

/-- **A RANGE SCAN IS EXACT**.  Over a tree in pages, whatever its shape, and
    for any bounds: the calls answer with the entries of the range one after
    another, in order of their keys, with their values, and from then on with
    none.  A value whose chain does not read ends the scan with its error. -/
theorem range_scan_is_exact (src : ReadPages) (o : Option Located) (h : Stored src o)
    (start stop : Option Key) :
    AssocList.Sorted ((entriesOf o).filter (fun e => inBounds start stop e.1)) ∧
    (∀ fuel, fuelFor o ≤ fuel → ∃ s, new src fuel (rootOf o) start stop = .ok s
      ∧ ∀ n, s.answer src fuel n = (handedOut src
        ((entriesOf o).filter (fun e => inBounds start stop e.1)))[n]?) ∧
    ∀ val : Key × ValueRef → Bytes, (∀ e ∈ entriesOf o, resolve src e.2 = .ok (val e)) →
      handedOut src ((entriesOf o).filter (fun e => inBounds start stop e.1))
        = ((entriesOf o).filter (fun e => inBounds start stop e.1)).map
          (fun e => .ok (e.1, val e)) := by
  refine ⟨?_, ?_, ?_⟩
  · cases o with
    | none => exact List.Pairwise.nil
    | some t => exact (sorted_entries (h.ordered t rfl)).sublist filter_sublist
  · intro fuel hfuel
    obtain ⟨s, hnew, hyields⟩ := new_yields h start stop hfuel
    exact ⟨s, hnew, answer_eq hyields⟩
  · intro val hval
    exact handedOut_ok fun e he => hval e (mem_of_mem_filter he)

/-- A branch over three leaves of two cells; the value of `d` is in a chain. -/
def threeLeaves : Located :=
  .branch 2 (.leaf 3 [([97], .inline [1]), ([98], .inline [2])])
    [([99], .leaf 4 [([99], .inline [3]), ([100], .overflow 6 3)]),
      ([101], .leaf 5 [([101], .inline [5]), ([102], .inline [6])])]

/-- Its pages, and the page of the chain. -/
def threeLeavesPages : ReadPages where
  read id :=
    match threeLeaves.pages.lookup id with
    | some page => .ok (image (fun _ => 0) 512 ⟨0, page⟩)
    | none => .ok (image (fun _ => 0) 512 ⟨0, .overflow NIL_PAGE [7, 8, 9]⟩)
  pageSize := 512

theorem stored_threeLeaves : Stored threeLeavesPages (some threeLeaves) := by
  constructor
  · rintro t ⟨⟩ id n hmem
    have hread : ∀ x ∈ threeLeaves.pages,
        threeLeavesPages.read x.1 = .ok (image (fun _ => 0) 512 ⟨0, x.2⟩)
          ∧ (decode (image (fun _ => 0) 512 ⟨0, x.2⟩) x.1).map Page.node = .ok x.2 := by
      decide +kernel
    obtain ⟨hbuf, hnode⟩ := hread _ hmem
    refine ⟨nodePage n, hbuf, by rw [length_nodePage]; decide, ?_⟩
    change (decode (nodePage n) id).map Page.node = .ok (.node n) at hnode
    cases hm : decode (nodePage n) id with
    | error e =>
        rw [hm] at hnode
        nomatch hnode
    | ok m =>
        rw [hm] at hnode
        rw [Page.node.inj (Except.ok.inj hnode)]
  · rintro t ⟨⟩
    show threeLeaves.shape.marks.Pairwise MarkLt
    decide +kernel
  · rintro t ⟨⟩
    exact Nat.succ_ne_zero 1

/-- The cells from `b` on and before `f`, across the three leaves, and then
    none. -/
theorem range_scan_is_exact_three_leaves :
    ∃ s, new threeLeavesPages 8 2 (some [98]) (some [102]) = .ok s
      ∧ (List.range 5).map (fun n => s.answer threeLeavesPages 8 n)
        = [some (.ok ([98], [2])), some (.ok ([99], [3])), some (.ok ([100], [7, 8, 9])),
          some (.ok ([101], [5])), none] := by
  obtain ⟨-, hscan, -⟩ :=
    range_scan_is_exact _ _ stored_threeLeaves (some [98]) (some [102])
  obtain ⟨s, hnew, hanswer⟩ := hscan 8 (by decide)
  refine ⟨s, hnew, ?_⟩
  rw [funext hanswer]
  decide +kernel

end QuantyCursor
