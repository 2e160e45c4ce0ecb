import QuantyDb.NodeModel

/-! # The in-place readers agree with decoding

    A cell read at an offset is the cell that decoding reads off the front of
    what starts there (`leafCellAt_cases`): both fail with the same error, or
    the ranges are of the decoded key and value and the next offset is where
    the rest starts.  The loops follow by induction on the count, since each
    of them stops early or goes on with the rest. -/

namespace QuantyNode

open QuantyKey QuantyPage QuantyCodec LittleEndian List Fan CellValue

/-! ## Fields -/

variable {cur rest : Bytes} {α : Type} {f : PageId} {es : List (Key × PageId)} {i n : Nat}
  {prev : Option Key} {e : Key × PageId}

theorem readLe_eq_some {w : Nat} (h : readLe w cur = some (n, rest)) :
    w ≤ cur.length ∧ rest = cur.drop w := by
  rw [readLe] at h
  split at h
  · nomatch h
  · next hlen =>
    obtain ⟨-, rfl⟩ := Prod.mk.inj (Option.some.inj h)
    exact ⟨not_lt.mp hlen, rfl⟩

/-- A key takes three bytes and its own, and the rest follows. -/
theorem readKeyRef_eq_some {key : Key} {flag : UInt8}
    (h : readKeyRef cur = some (key, flag, rest)) :
    3 + key.length ≤ cur.length ∧ key = slice 3 key.length cur
      ∧ rest = cur.drop (3 + key.length) := by
  rw [readKeyRef] at h
  split at h
  · nomatch h
  · next hthree =>
    dsimp only at h
    split at h
    · nomatch h
    · next hklen =>
      obtain ⟨rfl, hrest⟩ := Prod.mk.inj (Option.some.inj h)
      obtain ⟨-, rfl⟩ := Prod.mk.inj hrest
      have hlen : Key.length ((cur.drop 3).take (ofLe (cur.take 2))) = ofLe (cur.take 2) := by
        show List.length ((cur.drop 3).take (ofLe (cur.take 2))) = _
        rw [length_take, Nat.min_eq_left (not_lt.mp hklen)]
      rw [length_drop] at hklen
      rw [hlen]
      refine ⟨by omega, rfl, ?_⟩
      rw [drop_drop]

/-! ## Cells of a leaf -/

/-- What a value found in place stands for. -/
def CellValue.resolve (buf : Bytes) : CellValue → ValueRef
  | .inline start stop => .inline (range buf (start, stop))
  | .overflow head len => .overflow head len

/-- The key and value of a cell found in place. -/
def LeafCell.resolve (buf : Bytes) (c : LeafCell) : Key × ValueRef :=
  (keyIn buf c.key, c.value.resolve buf)

/-- A cell in place is the decoded one, and the rest starts where it ends. -/
structure CellAt (buf : Bytes) (c : LeafCell) (e : Key × ValueRef) (rest : Bytes) : Prop where
  entry : c.resolve buf = e
  next : c.next ≤ buf.length
  rest : buf.drop c.next = rest

/-- A range that starts at an offset, read off the front of what starts there. -/
theorem range_add (buf : Bytes) (a w : Nat) : range buf (a, a + w) = (buf.drop a).take w := by
  rw [range, slice, Nat.add_sub_cancel_left]

/-- **ONE CELL, BOTH WAYS**. -/
theorem leafCellAt_cases {buf : Bytes} {off : Nat} (id : PageId) (h : off ≤ buf.length) :
    (∃ e, leafCellAt buf off id = .error e ∧ readLeafCell id (buf.drop off) = .error e) ∨
    (∃ c e rest, leafCellAt buf off id = .ok c ∧ readLeafCell id (buf.drop off) = .ok (e, rest)
      ∧ CellAt buf c e rest) := by
  rw [leafCellAt, if_neg (not_lt.mpr h), readLeafCell, readKey]
  cases hkey : readKeyRef (buf.drop off) with
  | none => exact .inl ⟨_, rfl, rfl⟩
  | some cell =>
      obtain ⟨key, vflag, cur⟩ := cell
      obtain ⟨hlen, hslice, rfl⟩ := readKeyRef_eq_some hkey
      have hrange : keyIn buf (off + 3, off + 3 + key.length) = key := by
        rw [keyIn, range_add, ← drop_drop]
        exact hslice.symm
      have hdrop : (buf.drop off).drop (3 + key.length) = buf.drop (off + 3 + key.length) := by
        rw [drop_drop, Nat.add_assoc]
      rw [length_drop] at hlen
      rw [hdrop]
      dsimp only
      split_ifs with hin hov
      · -- the value is in the page
        cases hvlen : readU32 (buf.drop (off + 3 + key.length)) with
        | none => exact .inl ⟨_, rfl, rfl⟩
        | some field =>
            obtain ⟨len, cur⟩ := field
            obtain ⟨hfour, rfl⟩ := readLe_eq_some hvlen
            dsimp only
            rw [drop_drop]
            split_ifs with hshort
            · exact .inl ⟨_, rfl, rfl⟩
            · rw [length_drop] at hshort hfour
              refine .inr ⟨_, _, _, rfl, rfl, ?_, ?_, ?_⟩
              · exact Prod.ext hrange (congrArg ValueRef.inline (range_add buf _ len))
              · show off + 3 + key.length + 4 + len ≤ buf.length
                omega
              · exact (drop_drop ..).symm
      · -- the value is a chain of overflow pages
        cases hhead : readU64 (buf.drop (off + 3 + key.length)) with
        | none => exact .inl ⟨_, rfl, rfl⟩
        | some field =>
            obtain ⟨head, cur⟩ := field
            obtain ⟨-, rfl⟩ := readLe_eq_some hhead
            dsimp only
            rw [drop_drop]
            cases htotal : readU64 (buf.drop (off + 3 + key.length + 8)) with
            | none => exact .inl ⟨_, rfl, rfl⟩
            | some field =>
                obtain ⟨len, cur⟩ := field
                obtain ⟨height, rfl⟩ := readLe_eq_some htotal
                rw [length_drop] at height
                refine .inr ⟨_, _, _, rfl, rfl, Prod.ext hrange rfl, ?_, ?_⟩
                · show off + 3 + key.length + 16 ≤ buf.length
                  omega
                · rw [drop_drop]
      · exact .inl ⟨_, rfl, rfl⟩

theorem length_readCells {cell : Bytes → Except Error (α × Bytes)} {l : List α}
    (h : readCells cell n cur = .ok l) : l.length = n := by
  induction n generalizing cur l with
  | zero =>
      cases h
      rfl
  | succ n ih =>
      rw [readCells] at h
      split at h
      · nomatch h
      · next a rest hcell =>
        cases hrest : readCells cell n rest with
        | error e =>
            rw [hrest] at h
            nomatch h
        | ok l' =>
            rw [hrest] at h
            cases h
            exact congrArg (· + 1) (ih hrest)

/-! ## Leaves -/

section Leaf

variable {buf : Bytes} {id : PageId} {n off : Nat} {es : List (Key × ValueRef)}

/-- What a list read cell by cell has when it is there. -/
theorem exists_map_cons {x : Except Error (List α)} {a : α} {P : List α → Prop} :
    (∃ l, x.map (a :: ·) = .ok l ∧ P l) ↔ ∃ l, x = .ok l ∧ P (a :: l) := by
  cases x with
  | error e => simp [Except.map]
  | ok l => simp [Except.map]

theorem ascending_cons (e : Key × α) (es : List (Key × α)) :
    ascending (e :: es) = true ↔ (∀ d ∈ es.head?, e.1 < d.1) ∧ ascending es = true := by
  cases es with
  | nil => simp [ascending]
  | cons d rest => simp [ascending]

/-- **WALKING THE CELLS** gives the decoded ones, or the same error. -/
theorem leafCellsFrom_eq (buf : Bytes) (id : PageId) (n : Nat) (h : off ≤ buf.length) :
    (leafCellsFrom buf id n off).map (·.map (LeafCell.resolve buf))
      = readCells (readLeafCell id) n (buf.drop off) := by
  induction n generalizing off with
  | zero => rfl
  | succ n ih =>
      rw [leafCellsFrom, readCells]
      rcases leafCellAt_cases id h with ⟨e, hin, hdec⟩ | ⟨c, e, rest, hin, hdec, hat⟩
      · rw [hin, hdec]
        rfl
      · rw [hin, hdec]
        dsimp only
        rw [← hat.rest, ← ih hat.next, ← hat.entry]
        cases leafCellsFrom buf id n c.next <;> rfl

/-- One round of either check: the key is compared with the one before, and
    the rest is checked against it. -/
theorem check_round {x : Except Error (List (Key × α))} {next : Except Error Unit} {err : Error}
    {e : Key × α}
    (h : next = .ok () ↔ ∃ l, x = .ok l ∧ ascending l = true ∧ ∀ d ∈ l.head?, e.1 < d.1) :
    (if prev.any (fun p => decide (e.1 ≤ p)) then .error err else next) = .ok () ↔
      ∃ l, x.map (e :: ·) = .ok l ∧ ascending l = true ∧ ∀ p ∈ prev, ∀ d ∈ l.head?, p < d.1 := by
  rw [exists_map_cons]
  simp only [ascending_cons, head?_cons, Option.mem_some_iff, forall_eq']
  split_ifs with hprev
  · refine iff_of_false nofun ?_
    rintro ⟨l, -, -, hlt⟩
    cases prev with
    | none => nomatch hprev
    | some p => exact absurd (hlt p rfl) (not_lt.mpr (of_decide_eq_true hprev))
  · have hup : ∀ p ∈ prev, p < e.1 := by
      rintro p rfl
      simpa using hprev
    rw [h]
    constructor
    · rintro ⟨l, hl, hasc, hhead⟩
      exact ⟨l, hl, ⟨hhead, hasc⟩, hup⟩
    · rintro ⟨l, hl, ⟨hhead, hasc⟩, -⟩
      exact ⟨l, hl, hasc, hhead⟩

/-- **CHECKING** a leaf succeeds when its cells read and their keys go up. -/
theorem checkLeafLoop_ok_iff (h : off ≤ buf.length) {prev : Option (Nat × Nat)} :
    checkLeafLoop buf id n off prev = .ok () ↔
      ∃ es, readCells (readLeafCell id) n (buf.drop off) = .ok es ∧ ascending es = true
        ∧ ∀ p ∈ prev.map (keyIn buf), ∀ d ∈ es.head?, p < d.1 := by
  induction n generalizing off prev with
  | zero => simp [checkLeafLoop, readCells, ascending]
  | succ n ih =>
      rw [checkLeafLoop, readCells]
      rcases leafCellAt_cases id h with ⟨e, hin, hdec⟩ | ⟨c, e, rest, hin, hdec, hat⟩
      · simp [hin, hdec]
      · have hkey : keyIn buf c.key = e.1 := congrArg Prod.fst hat.entry
        have hany : prev.any (fun p => decide (e.1 ≤ keyIn buf p))
            = (prev.map (keyIn buf)).any (fun p => decide (e.1 ≤ p)) := by
          cases prev <;> rfl
        rw [hin, hdec]
        dsimp only
        rw [hkey, hany]
        apply check_round
        rw [ih hat.next, hat.rest]
        simp only [Option.map_some, Option.mem_some_iff, forall_eq', hkey]

/-- **SEARCHING** the cells in place is searching the decoded entries. -/
theorem findLoop_eq (h : off ≤ buf.length) (key : Key)
    (hes : readCells (readLeafCell id) n (buf.drop off) = .ok es) :
    ∃ found, findLoop buf id key n off = .ok found
      ∧ found.map (resolve buf) = QuantyPage.findInLeaf key es := by
  induction n generalizing off es with
  | zero =>
      cases hes
      exact ⟨none, rfl, rfl⟩
  | succ n ih =>
      rw [readCells] at hes
      rcases leafCellAt_cases id h with ⟨e, hin, hdec⟩ | ⟨c, e, rest, hin, hdec, hat⟩
      · rw [hdec] at hes
        nomatch hes
      · rw [hdec] at hes
        obtain ⟨es, hrest, rfl⟩ := exists_map_cons.mp ⟨es, hes, rfl⟩
        have hkey : keyIn buf c.key = e.1 := congrArg Prod.fst hat.entry
        have hvalue : c.value.resolve buf = e.2 := congrArg Prod.snd hat.entry
        rw [← hat.rest] at hrest
        rw [findLoop, hin, QuantyPage.findInLeaf]
        dsimp only
        rw [hkey]
        rcases lt_trichotomy e.1 key with hlt | heq | hgt
        · rw [compare_lt_iff_lt.mpr hlt, if_pos hlt]
          exact ih hat.next hrest
        · rw [compare_eq_iff_eq.mpr heq, if_neg (not_lt.mpr heq.ge), if_pos heq, ← hvalue]
          exact ⟨_, rfl, rfl⟩
        · rw [compare_gt_iff_gt.mpr hgt, if_neg (not_lt.mpr hgt.le), if_neg hgt.ne']
          exact ⟨_, rfl, rfl⟩

end Leaf

/-! ## Branches -/

section Branch

variable {id : PageId} {n : Nat} {cur : Bytes} {es : List (Key × PageId)}

/-- What a branch cell that decodes is made of. -/
theorem readBranchCell_eq_ok (h : readBranchCell id cur = .ok (e, rest)) :
    ∃ tail, readKeyRef cur = some (e.1, 0, tail) ∧ readU64 tail = some (e.2, rest) := by
  rw [readBranchCell, readKey] at h
  split at h
  · nomatch h
  · next key childHi tail hkey =>
    split at h
    · nomatch h
    · next hflag =>
      split at h
      · nomatch h
      · next child rest' hchild =>
        cases h
        exact ⟨tail, not_not.mp hflag ▸ hkey, hchild⟩

/-- One more cell off the front. -/
theorem readCells_succ_eq_ok (h : readCells (readBranchCell id) (n + 1) cur = .ok es) :
    ∃ e tail rest es', es = e :: es' ∧ readKeyRef cur = some (e.1, 0, tail)
      ∧ readU64 tail = some (e.2, rest) ∧ readCells (readBranchCell id) n rest = .ok es' := by
  rw [readCells] at h
  split at h
  · nomatch h
  · next e rest hcell =>
    obtain ⟨tail, hkey, hchild⟩ := readBranchCell_eq_ok hcell
    obtain ⟨es', hes', rfl⟩ := exists_map_cons.mp ⟨es, h, rfl⟩
    exact ⟨e, tail, rest, es', rfl, hkey, hchild, hes'⟩

theorem skipChild_of_readU64 {tail : Bytes} {child : PageId}
    (h : readU64 tail = some (child, rest)) :
    skipChild tail = .ok rest := by
  obtain ⟨hlen, rfl⟩ := readLe_eq_some h
  rw [skipChild, if_neg (not_lt.mpr hlen)]

/-- **CHECKING** a branch succeeds when its cells read and their keys go up. -/
theorem checkBranchLoop_ok_iff : checkBranchLoop id n cur prev = .ok () ↔
      ∃ es, readCells (readBranchCell id) n cur = .ok es ∧ ascending es = true
        ∧ ∀ p ∈ prev, ∀ d ∈ es.head?, p < d.1 := by
  induction n generalizing cur prev with
  | zero => simp [checkBranchLoop, readCells, ascending]
  | succ n ih =>
      rw [checkBranchLoop, readCells, readBranchCell, readKey]
      cases readKeyRef cur with
      | none => simp
      | some cell =>
          obtain ⟨key, flag, tail⟩ := cell
          dsimp only
          by_cases hflag : flag ≠ 0
          · simp [if_pos hflag]
          · rw [if_neg hflag, if_neg hflag]
            cases readU64 tail with
            | none => simp
            | some field =>
                obtain ⟨child, rest⟩ := field
                dsimp only
                apply check_round (e := (key, child))
                rw [ih]
                simp only [Option.mem_some_iff, forall_eq']

/-- One entry further along, the child is counted from the entry's own. -/
theorem fan_child_cons (f : PageId) (e : Key × PageId) (es : List (Key × PageId)) (i : Nat)
    (hi : i ≤ es.length) : child e.2 es i = child f (e :: es) (i + 1) := by
  cases i with
  | zero => rfl
  | succ i =>
      show ((es[i]?).map Prod.snd).getD e.2 = ((es[i]?).map Prod.snd).getD f
      rw [getElem?_eq_getElem hi]
      rfl

/-- The walk to a child takes the last one whose key is not above. -/
theorem branchChildLoop_eq (key : Key) (child : PageId)
    (hes : readCells (readBranchCell id) n cur = .ok es) :
    branchChildLoop id key n cur child = .ok (Fan.child child es (Fan.rank key es)) := by
  induction n generalizing cur es child with
  | zero =>
      cases hes
      rfl
  | succ n ih =>
      obtain ⟨e, tail, rest, es', rfl, hkey, hchild, hrest⟩ := readCells_succ_eq_ok hes
      rw [branchChildLoop, hkey]
      simp only [hchild, ne_eq, not_true_eq_false, if_false]
      by_cases habove : key < e.1
      · rw [if_pos habove]
        have hrank : rank key (e :: es') = 0 := by simp [rank, not_le.mpr habove]
        rw [hrank]
        rfl
      · rw [if_neg habove, ih e.2 hrest]
        have hrank : Fan.rank key (e :: es') = Fan.rank key es' + 1 := by
          simp [rank, not_lt.mp habove]
        rw [hrank]
        exact congrArg Except.ok (fan_child_cons child e es' _ (rank_le_length key es'))

theorem branchRankLoop_eq (key : Key) (rank : Nat)
    (hes : readCells (readBranchCell id) n cur = .ok es) :
    branchRankLoop key n cur rank = .ok (rank + Fan.rank key es) := by
  induction n generalizing cur es rank with
  | zero =>
      cases hes
      rfl
  | succ n ih =>
      obtain ⟨e, tail, rest, es', rfl, hkey, hchild, hrest⟩ := readCells_succ_eq_ok hes
      rw [branchRankLoop, hkey]
      simp only [skipChild_of_readU64 hchild]
      by_cases habove : key < e.1
      · have hrank : Fan.rank key (e :: es') = 0 := by simp [Fan.rank, not_le.mpr habove]
        rw [if_pos habove, hrank, Nat.add_zero]
      · have hrank : Fan.rank key (e :: es') = Fan.rank key es' + 1 := by
          simp [Fan.rank, not_lt.mp habove]
        rw [if_neg habove, ih (rank + 1) hrest, hrank, Nat.add_right_comm, Nat.add_assoc]

theorem branchChildAtLoop_eq (hes : readCells (readBranchCell id) n cur = .ok es)
    (hi : es[i]? = some e) : branchChildAtLoop i cur = .ok e.2 := by
  induction i generalizing cur es n with
  | zero =>
      cases n with
      | zero =>
          cases hes
          nomatch hi
      | succ n =>
          obtain ⟨e', tail, rest, es', rfl, hkey, hchild, -⟩ := readCells_succ_eq_ok hes
          obtain rfl : e' = e := Option.some.inj hi
          rw [branchChildAtLoop, hkey]
          simp only [hchild]
  | succ i ih =>
      cases n with
      | zero =>
          cases hes
          nomatch hi
      | succ n =>
          obtain ⟨e', tail, rest, es', rfl, hkey, hchild, hrest⟩ := readCells_succ_eq_ok hes
          rw [branchChildAtLoop, hkey]
          simp only [skipChild_of_readU64 hchild]
          exact ih hrest hi

end Branch

/-! ## Whole pages -/

section Page

variable {buf : Bytes} {id : PageId}

/-- **WHEN A LEAF DECODES**: its cells read and their keys go up. -/
theorem decode_leaf_iff {es : List (Key × ValueRef)} :
    decode buf id = .ok (.leaf es) ↔ pageType buf = .ok .leaf
      ∧ readCells (readLeafCell id) (count buf) (buf.drop PAGE_HEADER_LEN) = .ok es
      ∧ ascending es = true := by
  constructor
  · intro h
    rw [decode] at h
    split at h
    · nomatch h
    · next hkind =>
      split at h
      · nomatch h
      · next es' hcells =>
        split_ifs at h with hasc
        cases h
        exact ⟨hkind, hcells, hasc⟩
    · -- a branch decodes to a branch
      split at h
      · nomatch h
      · split at h
        · nomatch h
        · split_ifs at h
          cases h
    · nomatch h
  · rintro ⟨hkind, hcells, hasc⟩
    rw [decode, hkind]
    simp only [hcells, hasc, if_true]

theorem decode_branch_iff : decode buf id = .ok (.branch f es) ↔ pageType buf = .ok .branch
      ∧ ∃ cur, readU64 (buf.drop PAGE_HEADER_LEN) = some (f, cur)
        ∧ readCells (readBranchCell id) (count buf) cur = .ok es ∧ ascending es = true := by
  constructor
  · intro h
    rw [decode] at h
    split at h
    · nomatch h
    · -- a leaf decodes to a leaf
      split at h
      · nomatch h
      · split_ifs at h
        cases h
    · next hkind =>
      split at h
      · nomatch h
      · next f' cur hfirst =>
        split at h
        · nomatch h
        · next es' hcells =>
          split_ifs at h with hasc
          cases h
          exact ⟨hkind, cur, hfirst, hcells, hasc⟩
    · nomatch h
  · rintro ⟨hkind, cur, hfirst, hcells, hasc⟩
    rw [decode, hkind]
    simp only [hfirst, hcells, hasc, if_true]

/-- A page whose type byte says leaf decodes to a leaf or not at all. -/
theorem exists_decode_leaf (hkind : pageType buf = .ok .leaf) :
    (∃ node, decode buf id = .ok node) ↔ ∃ es, decode buf id = .ok (.leaf es) := by
  constructor
  · rintro ⟨node, h⟩
    cases node with
    | leaf es => exact ⟨es, h⟩
    | branch f es => nomatch hkind.symm.trans (decode_branch_iff.mp h).1
  · rintro ⟨es, h⟩
    exact ⟨_, h⟩

theorem exists_decode_branch (hkind : pageType buf = .ok .branch) :
    (∃ node, decode buf id = .ok node) ↔ ∃ f es, decode buf id = .ok (.branch f es) := by
  constructor
  · rintro ⟨node, h⟩
    cases node with
    | leaf es => nomatch hkind.symm.trans (decode_leaf_iff.mp h).1
    | branch f es => exact ⟨f, es, h⟩
  · rintro ⟨f, es, h⟩
    exact ⟨_, h⟩

theorem header_le (hlen : validPageSize buf.length = true) : PAGE_HEADER_LEN ≤ buf.length := by
  have := (le_of_validPageSize hlen).1
  rw [PAGE_HEADER_LEN]
  omega

theorem checkLeaf_iff (hlen : validPageSize buf.length = true) (hkind : pageType buf = .ok .leaf) :
    (∃ n, checkLeaf buf id = .ok n) ↔ ∃ node, decode buf id = .ok node := by
  have hcheck : (∃ n, checkLeaf buf id = .ok n) ↔
      checkLeafLoop buf id (count buf) PAGE_HEADER_LEN none = .ok () := by
    rw [checkLeaf]
    cases checkLeafLoop buf id (count buf) PAGE_HEADER_LEN none <;> simp [Except.map]
  rw [hcheck, checkLeafLoop_ok_iff (header_le hlen), exists_decode_leaf hkind]
  simp [decode_leaf_iff, hkind]

theorem checkBranch_iff (hkind : pageType buf = .ok .branch) :
    (∃ r, checkBranch buf id = .ok r) ↔ ∃ node, decode buf id = .ok node := by
  rw [exists_decode_branch hkind]
  simp only [decode_branch_iff, hkind, true_and]
  rw [checkBranch]
  cases readU64 (buf.drop PAGE_HEADER_LEN) with
  | none => simp
  | some field =>
      obtain ⟨f, cur⟩ := field
      have hcheck : checkBranchLoop id (count buf) cur none = .ok () ↔ _ := checkBranchLoop_ok_iff
      dsimp only
      cases hloop : checkBranchLoop id (count buf) cur none with
      | error e =>
          rw [hloop] at hcheck
          simpa [Except.map] using hcheck
      | ok u =>
          rw [hloop] at hcheck
          simpa [Except.map] using hcheck

theorem branchRank_eq (hdecode : decode buf id = .ok (.branch f es)) (key : Key) :
    branchRank buf key = .ok (Fan.rank key es) := by
  obtain ⟨-, cur, hfirst, hcells, -⟩ := decode_branch_iff.mp hdecode
  obtain ⟨height, hcur⟩ := readLe_eq_some hfirst
  rw [drop_drop] at hcur
  rw [length_drop] at height
  have hrank := branchRankLoop_eq key 0 hcells
  rw [Nat.zero_add, hcur] at hrank
  rw [branchRank, if_neg (by omega)]
  exact hrank

theorem branchChildAt_eq (hdecode : decode buf id = .ok (.branch f es)) (hi : i ≤ es.length) :
    branchChildAt buf i = .ok (child f es i) := by
  obtain ⟨-, cur, hfirst, hcells, -⟩ := decode_branch_iff.mp hdecode
  rw [branchChildAt, hfirst]
  dsimp only
  cases i with
  | zero => rfl
  | succ i =>
      show branchChildAtLoop i cur = _
      rw [branchChildAtLoop_eq hcells (getElem?_eq_getElem hi), child,
        getElem?_eq_getElem hi]
      rfl

end Page

/-- **THE IN-PLACE READERS AGREE WITH DECODING**, on every page: what decoding
    refuses the checks refuse and nothing else, and on a page that decodes the
    searches and walks answer as on the decoded entries. -/
theorem in_place_readers_agree (buf : Bytes) (id : PageId)
    (hlen : validPageSize buf.length = true) :
    (pageType buf = .ok .leaf →
      ((∃ n, checkLeaf buf id = .ok n) ↔ ∃ node, decode buf id = .ok node)) ∧
    (pageType buf = .ok .branch →
      ((∃ r, checkBranch buf id = .ok r) ↔ ∃ node, decode buf id = .ok node)) ∧
    (∀ es, decode buf id = .ok (.leaf es) →
      (∀ key, ∃ found, findInLeaf buf id key = .ok found
        ∧ found.map (resolve buf) = AssocList.get key es)
      ∧ ∃ cells, leafCellsFrom buf id (count buf) PAGE_HEADER_LEN = .ok cells
        ∧ cells.map (LeafCell.resolve buf) = es) ∧
    (∀ f es, decode buf id = .ok (.branch f es) → ∀ key,
      branchChild buf id key = .ok (child f es (rank key es))
      ∧ ∃ rank, branchRank buf key = .ok rank
        ∧ branchChildAt buf rank = .ok (Fan.child f es (Fan.rank key es))) := by
  have hhead := header_le hlen
  refine ⟨checkLeaf_iff hlen, checkBranch_iff, ?_, ?_⟩
  · intro es hdecode
    obtain ⟨-, hcells, hasc⟩ := decode_leaf_iff.mp hdecode
    constructor
    · intro key
      obtain ⟨found, hfind, hvalue⟩ := findLoop_eq hhead key hcells
      exact ⟨found, hfind, hvalue.trans (findInLeaf_eq_get ((ascending_iff_sorted es).mp hasc) key)⟩
    · have hwalk := leafCellsFrom_eq buf id (count buf) hhead
      rw [hcells] at hwalk
      cases hfrom : leafCellsFrom buf id (count buf) PAGE_HEADER_LEN with
      | error e =>
          rw [hfrom] at hwalk
          nomatch hwalk
      | ok cells =>
          rw [hfrom] at hwalk
          exact ⟨cells, rfl, Except.ok.inj hwalk⟩
  · intro f es hdecode key
    constructor
    · obtain ⟨-, cur, hfirst, hcells, -⟩ := decode_branch_iff.mp hdecode
      rw [branchChild, hfirst]
      exact branchChildLoop_eq key f hcells
    · exact ⟨rank key es, branchRank_eq hdecode key,
        branchChildAt_eq hdecode (rank_le_length key es)⟩

/-- A node in a page of 512 bytes. -/
def nodePage (n : Node) : Bytes := image (fun _ => 0) 512 ⟨0, .node n⟩

theorem length_nodePage (n : Node) : (nodePage n).length = 512 := length_image (by decide) _

/-- Three cells, the second with its value in a chain. -/
def threeCells : List (Key × ValueRef) :=
  [([97], .inline [49, 50]), ([98, 99], .overflow 7 5000), ([100], .inline [])]

/-- In a leaf of three cells and in a branch over three children: keys that are
    there, keys between them, and all of the cells. -/
theorem in_place_readers_agree_three :
    (∃ found, findInLeaf (nodePage (.leaf threeCells)) 3 [98, 99] = .ok found
      ∧ found.map (resolve (nodePage (.leaf threeCells))) = some (.overflow 7 5000))
    ∧ (∃ found, findInLeaf (nodePage (.leaf threeCells)) 3 [98] = .ok found
      ∧ found.map (resolve (nodePage (.leaf threeCells))) = none)
    ∧ (∃ cells, leafCellsFrom (nodePage (.leaf threeCells)) 3 3 PAGE_HEADER_LEN = .ok cells
      ∧ cells.map (LeafCell.resolve (nodePage (.leaf threeCells))) = threeCells)
    ∧ branchChild (nodePage (.branch 4 [([98], 5), ([100], 6)])) 3 [99] = .ok 5
    ∧ branchChild (nodePage (.branch 4 [([98], 5), ([100], 6)])) 3 [100] = .ok 6 := by
  have hsize : ∀ n, validPageSize (nodePage n).length = true := fun n => by
    rw [length_nodePage]
    decide
  have hleaf : decode (nodePage (.leaf threeCells)) 3 = .ok (.leaf threeCells) := by
    decide +kernel
  have hbranch : decode (nodePage (.branch 4 [([98], 5), ([100], 6)])) 3
      = .ok (.branch 4 [([98], 5), ([100], 6)]) := by
    decide +kernel
  obtain ⟨-, -, hfind, -⟩ := in_place_readers_agree (nodePage (.leaf threeCells)) 3 (hsize _)
  obtain ⟨-, -, -, hchild⟩ := in_place_readers_agree _ 3 (hsize _)
  obtain ⟨hkeys, hcells⟩ := hfind _ hleaf
  exact ⟨hkeys _, hkeys _, hcells, (hchild _ _ hbranch [99]).1, (hchild _ _ hbranch [100]).1⟩

end QuantyNode
