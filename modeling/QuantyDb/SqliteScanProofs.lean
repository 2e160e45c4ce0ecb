import QuantyDb.SqliteScan
import QuantyDb.SqliteReadProofs

/-! # Scans of SQLite trees end, and miss nothing

    What the pages of a file hold is a graph in the sense of `PageWalk`: a page
    is its cells in order, each a record or a pointer to a child, the right
    most child last; in an index the pointer of a cell of an interior page
    comes before the cell's own entry.  The two scans walk this graph
    (`walks_simulates`), so they end on any bytes and, when they end without
    an error, they have handed out a tree's records in order. -/

namespace QuantySqlite

open QuantyPage Outcome PageWalk List Scan List.Forall₂

/-! ## What the pages hold -/

/-- A leaf cell of a table, and the page it is on. -/
structure TableRecord where
  page : Nat
  rowid : Int
  payload : Bytes

/-- The slots of a page of a table: the rows of a leaf, the children of an
    interior page and its right most one. -/
def tableSlot (r : Reader) (page : BtreePage) (i : Nat) :
    Result (Option (Slot Nat TableRecord)) :=
  if page.kind = .leafTable then
    if page.cellCount ≤ i then .ok none
    else do
      let cell ← r.cell page i
      let (rowid, payload) ← TableScan.leafCell page.number cell
      return some (.record ⟨page.number, rowid, payload⟩)
  else if i < page.cellCount then do
    let cell ← r.cell page i
    let child ← TableScan.interiorCell page.number cell
    return some (.child child)
  else if i = page.cellCount then do
    let child ← rightMostOf page
    return some (.child child)
  else .ok none

/-- The slots of a page of an index: the entries of a leaf; of an interior page
    the child of a cell and then its entry, and the right most child. -/
def indexSlot (r : Reader) (page : BtreePage) (i : Nat) : Result (Option (Slot Nat Bytes)) :=
  if page.kind = .leafIndex then
    if page.cellCount ≤ i then .ok none
    else do
      let cell ← r.cell page i
      let payload ← IndexScan.payloadCell page.number cell
      return some (.record payload)
  else if i % 2 = 0 then
    if i / 2 < page.cellCount then do
      let cell ← r.cell page (i / 2)
      let child ← IndexScan.interiorCell page.number cell
      return some (.child child)
    else if i / 2 = page.cellCount then do
      let child ← rightMostOf page
      return some (.child child)
    else .ok none
  else if i / 2 < page.cellCount then do
    let cell ← r.cell page (i / 2)
    let payload ← IndexScan.payloadCell page.number cell
    return some (.record payload)
  else .ok none

section Graphs

variable {F A R O : Type}

/-- The graph of the pages that a kind of scan goes through. -/
def pageGraph (k : Scan.Kind F A) (r : Reader)
    (slot : BtreePage → Nat → Result (Option (Slot Nat R)))
    (accept : A → R → Result (A × O)) : Graph Nat R A O Error where
  slot p i := r.btreePage p >>= fun page => slot page i
  enter c := (childPage k r c).map fun _ => ()
  twice c := .malformed (some c) k.twice
  accept := accept

end Graphs

/-- What a scan of a table walks over, with the order of its row ids. -/
def tableGraph (r : Reader) : Graph Nat TableRecord (Option Int) TableRow Error :=
  pageGraph TableScan.kind r (tableSlot r)
    fun last record => TableScan.rowOf r record.page last record.rowid record.payload

/-- What a scan of an index walks over, in whatever order. -/
def indexGraph (r : Reader) : Graph Nat Bytes Unit (List SqliteValue) Error :=
  pageGraph IndexScan.kind r (indexSlot r)
    fun _ payload => (decodeRecord payload r.header.textEncoding).map fun values => ((), values)

/-! ### Where the slots are -/

variable {A F O R : Type} {c number : Nat} {page : BtreePage} {r : Reader} {k : Scan.Kind F A}
  {slot : BtreePage → Nat → Result (Option (Slot Nat R))} {accept : A → R → Result (A × O)}
  {j : Nat} {e : Error} {last last' : Option Int}

section Places

variable {r : Reader} {page : BtreePage} {i : Nat}

/-- Where a table page has what kind of slot. -/
def TablePlace (page : BtreePage) (i : Nat) : Option (Slot Nat TableRecord) → Prop
  | none => if page.kind = .leafTable then page.cellCount ≤ i else page.cellCount < i
  | some (.record _) => page.kind = .leafTable ∧ i < page.cellCount
  | some (.child _) => page.kind ≠ .leafTable ∧ i ≤ page.cellCount

/-- Where an index page has what kind of slot. -/
def IndexPlace (page : BtreePage) (i : Nat) : Option (Slot Nat Bytes) → Prop
  | none => if page.kind = .leafIndex then page.cellCount ≤ i else 2 * page.cellCount < i
  | some (.record _) =>
      if page.kind = .leafIndex then i < page.cellCount else i % 2 = 1 ∧ i / 2 < page.cellCount
  | some (.child _) => page.kind ≠ .leafIndex ∧ i % 2 = 0 ∧ i / 2 ≤ page.cellCount

/-- What a place of a table page holds is what its kind says. -/
theorem tableSlot_place {slot : Option (Slot Nat TableRecord)}
    (h : tableSlot r page i = .ok slot) : TablePlace page i slot := by
  rw [tableSlot] at h
  split at h
  · next hleaf =>
    split at h
    · next hend =>
      cases h
      exact (if_pos hleaf).mpr hend
    · next hlt =>
      obtain ⟨cell, -, h⟩ := bind_eq_ok.mp h
      obtain ⟨x, -, h⟩ := bind_eq_ok.mp h
      cases h
      exact ⟨hleaf, Nat.lt_of_not_le hlt⟩
  · next hleaf =>
    split at h
    · next hlt =>
      obtain ⟨cell, -, h⟩ := bind_eq_ok.mp h
      obtain ⟨child, -, h⟩ := bind_eq_ok.mp h
      cases h
      exact ⟨hleaf, hlt.le⟩
    · split at h
      · next heq =>
        obtain ⟨child, -, h⟩ := bind_eq_ok.mp h
        cases h
        exact ⟨hleaf, heq.le⟩
      · cases h
        exact (if_neg hleaf).mpr (by omega)

/-- The same for a page of an index. -/
theorem indexSlot_place {slot : Option (Slot Nat Bytes)} (h : indexSlot r page i = .ok slot) :
    IndexPlace page i slot := by
  rw [indexSlot] at h
  split at h
  · next hleaf =>
    split at h
    · next hend =>
      cases h
      exact (if_pos hleaf).mpr hend
    · next hlt =>
      obtain ⟨cell, -, h⟩ := bind_eq_ok.mp h
      obtain ⟨x, -, h⟩ := bind_eq_ok.mp h
      cases h
      exact (if_pos hleaf).mpr (Nat.lt_of_not_le hlt)
  · next hleaf =>
    split at h
    · next heven =>
      split at h
      · next hlt =>
        obtain ⟨cell, -, h⟩ := bind_eq_ok.mp h
        obtain ⟨child, -, h⟩ := bind_eq_ok.mp h
        cases h
        exact ⟨hleaf, heven, hlt.le⟩
      · split at h
        · next heq =>
          obtain ⟨child, -, h⟩ := bind_eq_ok.mp h
          cases h
          exact ⟨hleaf, heven, heq.le⟩
        · cases h
          exact (if_neg hleaf).mpr (by omega)
    · next hodd =>
      split at h
      · next hlt =>
        obtain ⟨cell, -, h⟩ := bind_eq_ok.mp h
        obtain ⟨x, -, h⟩ := bind_eq_ok.mp h
        cases h
        exact (if_neg hleaf).mpr ⟨by omega, hlt⟩
      · cases h
        exact (if_neg hleaf).mpr (by omega)

/-- A place behind the last one holds nothing. -/
theorem tableSlot_end (h : TablePlace page i none) : tableSlot r page i = .ok none := by
  rw [TablePlace] at h
  rw [tableSlot]
  split
  · next hleaf =>
    rw [if_pos hleaf] at h
    rw [if_pos h]
  · next hleaf =>
    rw [if_neg hleaf] at h
    rw [if_neg (by omega), if_neg (by omega)]

theorem indexSlot_end (h : IndexPlace page i none) : indexSlot r page i = .ok none := by
  rw [IndexPlace] at h
  rw [indexSlot]
  split
  · next hleaf =>
    rw [if_pos hleaf] at h
    rw [if_pos h]
  · next hleaf =>
    rw [if_neg hleaf] at h
    split
    · rw [if_neg (by omega), if_neg (by omega)]
    · rw [if_neg (by omega)]

/-- Behind the end there are only places behind the end. -/
theorem TablePlace.later (h : TablePlace page i none) (hj : i ≤ j) : TablePlace page j none := by
  rw [TablePlace] at h ⊢
  split
  · next hleaf =>
    rw [if_pos hleaf] at h
    exact h.trans hj
  · next hleaf =>
    rw [if_neg hleaf] at h
    exact h.trans_le hj

theorem IndexPlace.later (h : IndexPlace page i none) (hj : i ≤ j) : IndexPlace page j none := by
  rw [IndexPlace] at h ⊢
  split
  · next hleaf =>
    rw [if_pos hleaf] at h
    exact h.trans hj
  · next hleaf =>
    rw [if_neg hleaf] at h
    exact h.trans_le hj

/-- So the pages of a table have ends. -/
theorem tableGraph_ended (r : Reader) : Ended (tableGraph r) := by
  intro p i h j hj
  obtain ⟨page, hpage, hslot⟩ := bind_eq_ok.mp h
  exact bind_eq_ok.mpr ⟨page, hpage, tableSlot_end ((tableSlot_place hslot).later hj)⟩

theorem indexGraph_ended (r : Reader) : Ended (indexGraph r) := by
  intro p i h j hj
  obtain ⟨page, hpage, hslot⟩ := bind_eq_ok.mp h
  exact bind_eq_ok.mpr ⟨page, hpage, indexSlot_end ((indexSlot_place hslot).later hj)⟩

/-- A page that is entered is in the file. -/
theorem enter_le (h : (pageGraph k r slot accept).enter c = .ok ()) :
    c ∈ List.range (r.pageCount + 1) := by
  have hmap : (childPage k r c).map (fun _ => ()) = .ok () := h
  cases hc : childPage k r c with
  | error e =>
      rw [hc] at hmap
      nomatch hmap
  | ok page =>
      obtain ⟨_, hpage, -⟩ := bind_eq_ok.mp hc
      exact mem_range.mpr (Nat.lt_succ_of_le (btreePage_ok hpage).2.2)

/-- **A FILE HAS ONLY SO MANY PAGES**, and a page only so many cells. -/
theorem tableGraph_bounded (r : Reader) :
    Bounded (tableGraph r) (List.range (r.pageCount + 1)) (2 ^ 17) where
  enter _ h := enter_le h
  slot p i x h := by
    obtain ⟨page, hpage, hslot⟩ := bind_eq_ok.mp h
    obtain ⟨-, hcount, -⟩ := btreePage_ok hpage
    have hplace := tableSlot_place hslot
    cases x with
    | record _ => have := hplace.2; omega
    | child _ => have := hplace.2; omega

/-- An index page has two places for each of its cells at the most. -/
theorem indexGraph_bounded (r : Reader) :
    Bounded (indexGraph r) (List.range (r.pageCount + 1)) (2 ^ 17) where
  enter _ h := enter_le h
  slot p i x h := by
    obtain ⟨page, hpage, hslot⟩ := bind_eq_ok.mp h
    obtain ⟨-, hcount, -⟩ := btreePage_ok hpage
    have hplace := indexSlot_place hslot
    cases x with
    | record _ =>
        rw [IndexPlace] at hplace
        split at hplace <;> omega
    | child _ =>
        have := hplace.2.2
        omega

end Places

/-! ## The page in hand -/

section Simulation

variable {F A R O : Type} {k : Scan.Kind F A} {r : Reader} {G : Graph Nat R A O Error}
  {step : Scan F A → Result (Option O × Scan F A)} {pageOf : F → Nat}
  {Stands : BtreePage → F → Nat → Prop} {s : Scan F A} {w w' : Walk Nat A}

/-- The page in hand is a page of the file. -/
def Coherent (r : Reader) (s : Scan F A) : Prop :=
  ∀ page, s.current = some page → r.btreePage page.number = .ok page

/-- Whether it was in hand or not, the page is the file's. -/
theorem Coherent.ensurePage (h : Coherent r s) (hpage : r.btreePage number = .ok page) :
    s.ensurePage r number = .ok { s with current := some page } := by
  rw [Scan.ensurePage]
  split
  · next hhand =>
    obtain ⟨page', hcurrent, rfl⟩ := Option.map_eq_some_iff.mp hhand
    cases (h page' hcurrent).symm.trans hpage
    rw [← hcurrent]
  · rw [hpage]
    rfl

/-- A page that was just read is the one the scan is at. -/
theorem coherent_of_page (hpage : r.btreePage number = .ok page)
    (hcurrent : s.current = some page) :
    Coherent r s := by
  intro page' h'
  cases hcurrent.symm.trans h'
  rw [(btreePage_ok hpage).1]
  exact hpage

/-! ## The scans walk the graph -/

/-- **WHAT A STEP OF A SCAN DOES** with the slot its top frame stands at. -/
structure Walks (k : Scan.Kind F A) (r : Reader) (G : Graph Nat R A O Error)
    (step : Scan F A → Result (Option O × Scan F A)) (pageOf : F → Nat)
    (Stands : BtreePage → F → Nat → Prop) : Prop where
  enter : ∀ c, G.enter c = (childPage k r c).map fun _ => ()
  twice : ∀ c, G.twice c = .malformed (some c) k.twice
  fresh : ∀ page, pageOf (k.frame page.number) = page.number ∧ Stands page (k.frame page.number) 0
  fail : ∀ {s f below page i e}, s.stack = f :: below → Coherent r s →
    r.btreePage (pageOf f) = .ok page → Stands page f i → G.slot (pageOf f) i = .error e →
    step s = .error e
  leave : ∀ {s f below page i}, s.stack = f :: below → Coherent r s →
    r.btreePage (pageOf f) = .ok page → Stands page f i → G.slot (pageOf f) i = .ok none →
    step s = .ok (none, { s with current := some page, stack := below })
  record : ∀ {s f below page i x}, s.stack = f :: below → Coherent r s →
    r.btreePage (pageOf f) = .ok page → Stands page f i →
    G.slot (pageOf f) i = .ok (some (.record x)) →
    ∃ f', pageOf f' = pageOf f ∧ Stands page f' (i + 1) ∧
      step s = (G.accept s.last x).map fun y =>
        (some y.2, { s with current := some page, stack := f' :: below, last := y.1 })
  child : ∀ {s f below page i c}, s.stack = f :: below → Coherent r s →
    r.btreePage (pageOf f) = .ok page → Stands page f i →
    G.slot (pageOf f) i = .ok (some (.child c)) →
    ∃ f', pageOf f' = pageOf f ∧ Stands page f' (i + 1) ∧
      step s = (descend k r { s with current := some page, stack := f' :: below } c).map
        fun s' => (none, s')

/-- A frame of a scan and a place of a walk. -/
def Placed (r : Reader) (pageOf : F → Nat) (Stands : BtreePage → F → Nat → Prop) (f : F)
    (e : Nat × Nat) : Prop :=
  pageOf f = e.1 ∧ ∃ page, r.btreePage e.1 = .ok page ∧ Stands page f e.2

/-- A scan and a walk at the same place. -/
structure SamePlace (r : Reader) (pageOf : F → Nat) (Stands : BtreePage → F → Nat → Prop)
    (s : Scan F A) (w : Walk Nat A) : Prop where
  running : s.finished = false
  stack : List.Forall₂ (Placed r pageOf Stands) s.stack w.stack
  visited : s.visited = w.visited
  last : s.last = w.acc
  coherent : Coherent r s

/-- A child that passes the checks is a page of the file. -/
theorem childPage_ok (h : childPage k r c = .ok page) : r.btreePage c = .ok page := by
  obtain ⟨page', hpage, hrest⟩ := bind_eq_ok.mp h
  obtain ⟨-, -, hpure⟩ := bind_eq_ok.mp hrest
  cases hpure
  exact hpage

/-- **A STEP OF THE SCAN** is a step of the walk. -/
theorem SamePlace.go {out : Option O} (hw : Walks k r G step pageOf Stands)
    (h : SamePlace r pageOf Stands s w) (hstep : PageWalk.step G w = .go w' out) :
    ∃ s', step s = .ok (out, s') ∧ SamePlace r pageOf Stands s' w' := by
  obtain ⟨p, i, below, hstack, hcases⟩ := step_go G hstep
  have hframes := h.stack
  rw [hstack] at hframes
  obtain ⟨f, fbelow, ⟨rfl, page, hpage, hstands⟩, hbelow, htop⟩ :=
    List.forall₂_cons_right_iff.mp hframes
  dsimp only at hpage hstands
  rcases hcases with ⟨hslot, rfl, rfl⟩ | ⟨x, acc, o, hslot, hacc, rfl, rfl⟩ |
    ⟨c, hslot, hnew, henter, rfl, rfl⟩
  · refine ⟨_, hw.leave htop h.coherent hpage hstands hslot, ?_⟩
    exact ⟨h.running, hbelow, h.visited, h.last, coherent_of_page hpage rfl⟩
  · obtain ⟨f', hpage', hstands', heq⟩ := hw.record htop h.coherent hpage hstands hslot
    rw [h.last, hacc] at heq
    refine ⟨_, heq, h.running, ?_, h.visited, rfl, coherent_of_page hpage rfl⟩
    exact cons ⟨hpage', page, hpage, hstands'⟩ hbelow
  · obtain ⟨f', hpage', hstands', heq⟩ := hw.child htop h.coherent hpage hstands hslot
    rw [hw.enter c] at henter
    obtain ⟨cpage, hcpage⟩ : ∃ q, childPage k r c = .ok q := by
      cases hq : childPage k r c with
      | ok q => exact ⟨q, rfl⟩
      | error e =>
          rw [hq] at henter
          nomatch henter
    have hread := childPage_ok hcpage
    obtain ⟨hnumber, -, -⟩ := btreePage_ok hread
    have hfresh := hw.fresh cpage
    rw [hnumber] at hfresh
    rw [descend, if_neg (by rw [h.visited]; exact hnew), hcpage] at heq
    refine ⟨_, heq, h.running, ?_, congrArg (c :: ·) h.visited, h.last, coherent_of_page hread rfl⟩
    exact cons ⟨hfresh.1, cpage, hread, hfresh.2⟩
      (cons ⟨hpage', page, hpage, hstands'⟩ hbelow)

/-- **A STEP THAT FAILS** fails alike. -/
theorem SamePlace.fail (hw : Walks k r G step pageOf Stands) (h : SamePlace r pageOf Stands s w)
    (hstep : PageWalk.step G w = .fail e) : step s = .error e := by
  obtain ⟨p, i, below, hstack, hcases⟩ := step_fail G hstep
  have hframes := h.stack
  rw [hstack] at hframes
  obtain ⟨f, fbelow, ⟨rfl, page, hpage, hstands⟩, hbelow, htop⟩ :=
    List.forall₂_cons_right_iff.mp hframes
  dsimp only at hpage hstands
  rcases hcases with hslot | ⟨x, hslot, hacc⟩ | ⟨c, hslot, hchild⟩
  · exact hw.fail htop h.coherent hpage hstands hslot
  · obtain ⟨f', -, -, heq⟩ := hw.record htop h.coherent hpage hstands hslot
    rw [heq, h.last, hacc]
    rfl
  · obtain ⟨f', -, -, heq⟩ := hw.child htop h.coherent hpage hstands hslot
    rw [heq, descend]
    rcases hchild with ⟨hold, rfl⟩ | ⟨hnew, henter⟩
    · rw [if_pos (by rw [h.visited]; exact hold), hw.twice c]
      rfl
    · rw [if_neg (by rw [h.visited]; exact hnew)]
      rw [hw.enter c] at henter
      cases hq : childPage k r c with
      | ok q =>
          rw [hq] at henter
          nomatch henter
      | error e' =>
          rw [hq] at henter
          cases henter
          rfl

/-- **A SCAN THAT WALKS** simulates the walk over its graph. -/
theorem walks_simulates (hw : Walks k r G step pageOf Stands) :
    Simulates (machine step) G (SamePlace r pageOf Stands) where
  running h := h.running
  idle {s w} h := by
    show s.stack.isEmpty = true ↔ _
    rw [List.isEmpty_iff]
    constructor
    · intro hnil
      have hframes := h.stack
      rw [hnil] at hframes
      exact List.forall₂_nil_left_iff.mp hframes
    · intro hnil
      have hframes := h.stack
      rw [hnil] at hframes
      exact List.forall₂_nil_right_iff.mp hframes
  fail {s w e} h hstep := by
    simp only [machine, h.fail hw hstep]
  go {s w w' out} h hstep := by
    obtain ⟨s', heq, hsame⟩ := h.go hw hstep
    have hms : (machine step).step s = (.ok out, s') := by
      simp only [machine, heq]
    rw [hms]
    exact ⟨rfl, hsame⟩

end Simulation

/-! ### Table trees -/

section Table

variable {r : Reader} {s : TableScan} {p i : Nat} {below : List Frame} {page : BtreePage}

/-- What a scan makes of a slot of a table page. -/
def TableScan.onSlot (r : Reader) (s : TableScan) (p i : Nat) (below : List Frame) :
    Option (Slot Nat TableRecord) → Result (Option TableRow × TableScan)
  | none => .ok (none, { s with stack := below })
  | some (.record x) => (TableScan.rowOf r x.page s.last x.rowid x.payload).map fun y =>
      (some y.2, { s with stack := ⟨p, i + 1⟩ :: below, last := y.1 })
  | some (.child c) => (TableScan.descend r { s with stack := ⟨p, i + 1⟩ :: below } c).map
      fun s' => (none, s')

/-- **A STEP OF A TABLE SCAN** reads the slot it stands at. -/
theorem tableStep_eq (hstack : s.stack = ⟨p, i⟩ :: below) (hs : Coherent r s)
    (hpage : r.btreePage p = .ok page) :
    TableScan.step r s
      = tableSlot r page i >>= TableScan.onSlot r { s with current := some page } p i below := by
  obtain ⟨rfl, -, -⟩ := btreePage_ok hpage
  obtain ⟨stack, visited, current, last, finished⟩ := s
  cases hstack
  rw [TableScan.step]
  dsimp only
  rw [hs.ensurePage hpage, tableSlot]
  simp only [ok_bind, pageInHand]
  split
  · -- a leaf: its end, or a row
    split
    · rfl
    · rw [bind_assoc]
      refine bind_congr fun cell => ?_
      rw [bind_assoc]
      refine bind_congr fun x => ?_
      exact bind_pure_eq_map
  · split
    · rw [bind_assoc]
      refine bind_congr fun cell => ?_
      rw [bind_assoc]
      refine bind_congr fun child => ?_
      exact bind_pure_eq_map
    · split
      · rw [bind_assoc]
        refine bind_congr fun child => ?_
        exact bind_pure_eq_map
      · rfl

/-- Where a frame of a table scan stands. -/
def TableScan.Stands (_ : BtreePage) (f : Frame) (i : Nat) : Prop := f.next = i

theorem pageGraph_slot (hpage : r.btreePage p = .ok page) :
    (pageGraph k r slot accept).slot p i = slot page i := by
  show (r.btreePage p >>= fun page => slot page i) = _
  rw [hpage]
  rfl

/-- **THE TABLE SCAN** walks, case by case as its step does. -/
theorem tableScan_walks (r : Reader) :
    Walks TableScan.kind r (tableGraph r) (TableScan.step r) Frame.page TableScan.Stands where
  enter _ := rfl
  twice _ := rfl
  fresh _ := ⟨rfl, rfl⟩
  fail := by
    rintro s ⟨p, i⟩ below page _ e hstack hs hpage rfl hslot
    rw [tableGraph, pageGraph_slot hpage] at hslot
    rw [tableStep_eq hstack hs hpage, hslot]
    rfl
  leave := by
    rintro s ⟨p, i⟩ below page _ hstack hs hpage rfl hslot
    rw [tableGraph, pageGraph_slot hpage] at hslot
    rw [tableStep_eq hstack hs hpage, hslot]
    rfl
  record := by
    rintro s ⟨p, i⟩ below page _ x hstack hs hpage rfl hslot
    rw [tableGraph, pageGraph_slot hpage] at hslot
    refine ⟨⟨p, i + 1⟩, rfl, rfl, ?_⟩
    rw [tableStep_eq hstack hs hpage, hslot]
    rfl
  child := by
    rintro s ⟨p, i⟩ below page _ c hstack hs hpage rfl hslot
    rw [tableGraph, pageGraph_slot hpage] at hslot
    refine ⟨⟨p, i + 1⟩, rfl, rfl, ?_⟩
    rw [tableStep_eq hstack hs hpage, hslot]
    rfl

end Table

/-! ### Index trees -/

section Index

variable {r : Reader} {s : IndexScan} {f : IndexFrame} {i : Nat} {below : List IndexFrame}
  {page : BtreePage}

/-- Where a frame of an index scan stands: a cell of an interior page has two
    slots, its child and its entry. -/
def IndexScan.Stands (page : BtreePage) (f : IndexFrame) (i : Nat) : Prop :=
  if page.kind = .leafIndex then f.next = i ∧ f.descended = false
  else f.next ≤ page.cellCount ∧ i = 2 * f.next + f.descended.toNat

/-- What a scan makes of a slot of an index page. -/
def IndexScan.onSlot (r : Reader) (s : IndexScan) (f : IndexFrame) (below : List IndexFrame) :
    Option (Slot Nat Bytes) → Result (Option (List SqliteValue) × IndexScan)
  | none => .ok (none, { s with stack := below })
  | some (.record payload) => (decodeRecord payload r.header.textEncoding).map fun values =>
      (some values, { s with stack := ⟨f.page, f.next + 1, false⟩ :: below })
  | some (.child c) =>
      (IndexScan.descend r { s with stack := ⟨f.page, f.next, true⟩ :: below } c).map
        fun s' => (none, s')

/-- The entry of a cell, whose page is in hand. -/
theorem payloadOf_eq (hs : Coherent r s) (hpage : r.btreePage page.number = .ok page) (n : Nat) :
    IndexScan.payloadOf r s page.number n
      = r.cell page n >>= fun cell => IndexScan.payloadCell page.number cell >>= fun payload =>
          .ok (payload, { s with current := some page }) := by
  rw [IndexScan.payloadOf, hs.ensurePage hpage]
  rfl

/-- **A STEP OF AN INDEX SCAN** reads the slot it stands at. -/
theorem indexStep_eq (hstack : s.stack = f :: below) (hs : Coherent r s)
    (hpage : r.btreePage f.page = .ok page) (hstands : IndexScan.Stands page f i) :
    IndexScan.step r s
      = indexSlot r page i >>= IndexScan.onSlot r { s with current := some page } f below := by
  obtain ⟨p, next, descended⟩ := f
  obtain ⟨rfl, -, -⟩ := btreePage_ok hpage
  obtain ⟨stack, visited, current, last, finished⟩ := s
  cases hstack
  rw [IndexScan.step]
  dsimp only
  rw [hs.ensurePage hpage, indexSlot]
  simp only [ok_bind, pageInHand]
  rw [IndexScan.Stands] at hstands
  split
  · next hleaf =>
    rw [if_pos hleaf] at hstands
    obtain ⟨rfl, rfl⟩ := hstands
    split
    · rfl
    · rw [payloadOf_eq (coherent_of_page hpage rfl) hpage]
      rw [bind_assoc, bind_assoc]
      refine bind_congr fun cell => ?_
      rw [bind_assoc, bind_assoc]
      refine bind_congr fun payload => ?_
      exact bind_pure_eq_map
  · next hleaf =>
    rw [if_neg hleaf] at hstands
    obtain ⟨hnext, rfl⟩ := hstands
    cases descended with
    | false =>
        -- the child left of the cell, or the right most one
        have heven : (2 * next + Bool.toNat false) % 2 = 0 := by simp
        have hhalf : (2 * next + Bool.toNat false) / 2 = next := by simp
        rw [if_pos rfl, if_pos heven, hhalf]
        split
        · rw [Coherent.ensurePage (coherent_of_page hpage rfl) hpage]
          simp only [ok_bind, top]
          rw [bind_assoc]
          refine bind_congr fun cell => ?_
          rw [bind_assoc]
          refine bind_congr fun child => ?_
          exact bind_pure_eq_map
        · next hlast =>
          have heq : next = page.cellCount := Nat.le_antisymm hnext (Nat.le_of_not_lt hlast)
          rw [if_pos heq, bind_assoc]
          refine bind_congr fun child => ?_
          exact bind_pure_eq_map
    | true =>
        have hodd : ¬ (2 * next + Bool.toNat true) % 2 = 0 := by
          show ¬ (2 * next + 1) % 2 = 0
          omega
        have hhalf : (2 * next + Bool.toNat true) / 2 = next := by
          show (2 * next + 1) / 2 = next
          omega
        rw [if_neg nofun, if_neg hodd, hhalf]
        split
        · rw [payloadOf_eq (coherent_of_page hpage rfl) hpage]
          rw [bind_assoc, bind_assoc]
          refine bind_congr fun cell => ?_
          rw [bind_assoc, bind_assoc]
          refine bind_congr fun payload => ?_
          exact bind_pure_eq_map
        · rfl

/-- Past an entry comes the next one, or on an interior page the child between. -/
theorem IndexScan.stands_record {x : Bytes} (hstands : IndexScan.Stands page f i)
    (hslot : indexSlot r page i = .ok (some (.record x))) :
    IndexScan.Stands page ⟨f.page, f.next + 1, false⟩ (i + 1) := by
  obtain ⟨p, next, descended⟩ := f
  have hplace := indexSlot_place hslot
  rw [IndexScan.Stands] at hstands ⊢
  split
  · next hleaf =>
    rw [if_pos hleaf] at hstands
    exact ⟨congrArg (· + 1) hstands.1, rfl⟩
  · next hleaf =>
    rw [if_neg hleaf] at hstands
    rw [IndexPlace, if_neg hleaf] at hplace
    obtain ⟨-, rfl⟩ := hstands
    cases descended with
    | false =>
        have hodd : (2 * next + 0) % 2 = 1 := hplace.1
        omega
    | true =>
        have hlt : (2 * next + 1) / 2 < page.cellCount := hplace.2
        exact ⟨show next + 1 ≤ _ by omega, rfl⟩

/-- Past a child comes the entry behind it. -/
theorem IndexScan.stands_child (hstands : IndexScan.Stands page f i)
    (hslot : indexSlot r page i = .ok (some (.child c))) :
    IndexScan.Stands page ⟨f.page, f.next, true⟩ (i + 1) := by
  obtain ⟨p, next, descended⟩ := f
  obtain ⟨hleaf, heven, -⟩ := indexSlot_place hslot
  rw [IndexScan.Stands] at hstands ⊢
  rw [if_neg hleaf] at hstands ⊢
  obtain ⟨hnext, rfl⟩ := hstands
  cases descended with
  | false => exact ⟨hnext, rfl⟩
  | true =>
      have heven : (2 * next + 1) % 2 = 0 := heven
      omega

/-- **THE INDEX SCAN** walks as well; on interior pages it stops twice at a cell. -/
theorem indexScan_walks (r : Reader) :
    Walks IndexScan.kind r (indexGraph r) (IndexScan.step r) IndexFrame.page IndexScan.Stands where
  enter _ := rfl
  twice _ := rfl
  fresh page := by
    refine ⟨rfl, ?_⟩
    rw [IndexScan.Stands]
    split
    · exact ⟨rfl, rfl⟩
    · exact ⟨Nat.zero_le _, rfl⟩
  fail := by
    intro s f below page i e hstack hs hpage hstands hslot
    rw [indexGraph, pageGraph_slot hpage] at hslot
    rw [indexStep_eq hstack hs hpage hstands, hslot]
    rfl
  leave := by
    intro s f below page i hstack hs hpage hstands hslot
    rw [indexGraph, pageGraph_slot hpage] at hslot
    rw [indexStep_eq hstack hs hpage hstands, hslot]
    rfl
  record := by
    intro s f below page i x hstack hs hpage hstands hslot
    rw [indexGraph, pageGraph_slot hpage] at hslot
    refine ⟨⟨f.page, f.next + 1, false⟩, rfl, IndexScan.stands_record hstands hslot, ?_⟩
    rw [indexStep_eq hstack hs hpage hstands, hslot]
    show (decodeRecord x r.header.textEncoding).map _
      = ((decodeRecord x r.header.textEncoding).map _).map _
    cases decodeRecord x r.header.textEncoding <;> rfl
  child := by
    intro s f below page i c hstack hs hpage hstands hslot
    rw [indexGraph, pageGraph_slot hpage] at hslot
    refine ⟨⟨f.page, f.next, true⟩, rfl, IndexScan.stands_child hstands hslot, ?_⟩
    rw [indexStep_eq hstack hs hpage hstands, hslot]
    rfl

end Index

/-! ## The scans -/

section Scans

variable {F A R O : Type} {k : Scan.Kind F A} {r : Reader} {G : Graph Nat R A O Error}
  {step : Scan F A → Result (Option O × Scan F A)} {pageOf : F → Nat}
  {Stands : BtreePage → F → Nat → Prop} {s : Scan F A} {root : Nat}

/-- The pages on the stack of a scan. -/
def Scan.pages (pageOf : F → Nat) (s : Scan F A) : List Nat := s.stack.map pageOf

/-- The pages on the way down are those of the walk. -/
theorem SamePlace.pages {w : Walk Nat A} (h : SamePlace r pageOf Stands s w) :
    s.pages pageOf = w.stack.map Prod.fst := by
  have hplaced : ∀ {l : List F} {l' : List (Nat × Nat)},
      List.Forall₂ (Placed r pageOf Stands) l l' → l.map pageOf = l'.map Prod.fst := by
    intro l l' hl
    induction hl with
    | nil => rfl
    | cons hhead _ ih => rw [map_cons, map_cons, hhead.1, ih]
  exact hplaced h.stack

/-- A scan sets out where the walk does. -/
theorem new_samePlace (hw : Walks k r G step pageOf Stands) (h : new k r root = .ok s) :
    SamePlace r pageOf Stands s (start root k.last) ∧ root ≤ r.pageCount := by
  obtain ⟨page, hpage, hrest⟩ := bind_eq_ok.mp h
  obtain ⟨-, -, hpure⟩ := bind_eq_ok.mp hrest
  cases hpure
  obtain ⟨rfl, -, hle⟩ := btreePage_ok hpage
  obtain ⟨hfresh, hstands⟩ := hw.fresh page
  refine ⟨⟨rfl, ?_, rfl, rfl, coherent_of_page hpage rfl⟩, hle⟩
  exact cons ⟨hfresh, page, hpage, hstands⟩ nil

/-- **A SCAN COMES TO ITS END**, within as many rounds as the file has room for. -/
theorem scan_exhausts (hw : Walks k r G step pageOf Stands) (hended : Ended G)
    (hb : Bounded G (List.range (r.pageCount + 1)) (2 ^ 17)) (h : new k r root = .ok s) :
    ∃ answers, Exhausts (machine step) .outOfFuel (pages pageOf) G root k.last s answers
      ∧ answers.length ≤ r.rounds
      ∧ Yields ((machine step).next .outOfFuel r.rounds) s answers
      ∧ ∀ o, .ok o ∈ answers → Comes G o := by
  obtain ⟨hsame, hle⟩ := new_samePlace hw h
  have hroot : root ∈ List.range (r.pageCount + 1) := mem_range.mpr (Nat.lt_succ_of_le hle)
  have hrounds :
      leftOver (List.range (r.pageCount + 1)) (2 ^ 17) (start root k.last) < r.rounds := by
    have hmul : r.rounds = r.pageCount * (2 ^ 17 + 2) + (2 ^ 17 + 2) := Nat.succ_mul _ _
    rw [leftOver, start, length_range, map_singleton, sum_singleton, hmul]
    dsimp only [length_singleton]
    omega
  refine ⟨_, (walks_simulates hw).exhausts_run .outOfFuel SamePlace.pages hended hb hroot hsame
    hrounds, length_items_run G _ _, ?_, fun o => comes_of_run⟩
  exact (walks_simulates hw).yields .outOfFuel hsame
    (run_ends hb (within_start k.last hroot) hrounds) le_rfl

end Scans

/-! ### No failure is a fault -/

section Faults

variable {r : Reader} (hr : r.source.Sound)

theorem safe_rightMostOf (page : BtreePage) : Safe (rightMostOf page) := by
  rw [rightMostOf]
  split
  · exact of_ok trivial
  · exact of_error id

theorem safe_leafCell (number : Nat) (cell : Cell) : Safe (TableScan.leafCell number cell) := by
  cases cell with
  | tableLeaf rowid payload => exact of_ok trivial
  | tableInterior child rowid => exact of_error id
  | indexInterior child payload => exact of_error id
  | indexLeaf payload => exact of_error id

theorem safe_tableInterior (number : Nat) (cell : Cell) :
    Safe (TableScan.interiorCell number cell) := by
  cases cell with
  | tableInterior child rowid => exact of_ok trivial
  | tableLeaf rowid payload => exact of_error id
  | indexInterior child payload => exact of_error id
  | indexLeaf payload => exact of_error id

theorem safe_payloadCell (number : Nat) (cell : Cell) :
    Safe (IndexScan.payloadCell number cell) := by
  cases cell with
  | indexInterior child payload => exact of_ok trivial
  | indexLeaf payload => exact of_ok trivial
  | tableInterior child rowid => exact of_error id
  | tableLeaf rowid payload => exact of_error id

theorem safe_indexInterior (number : Nat) (cell : Cell) :
    Safe (IndexScan.interiorCell number cell) := by
  cases cell with
  | indexInterior child payload => exact of_ok trivial
  | tableInterior child rowid => exact of_error id
  | tableLeaf rowid payload => exact of_error id
  | indexLeaf payload => exact of_error id

/-- A row id out of order is refused. -/
theorem safe_rowOf (number : Nat) (last : Option Int) (rowid : Int) (payload : Bytes) :
    Safe (TableScan.rowOf r number last rowid payload) := by
  have horder : Safe (TableScan.checkOrder number last rowid) := by
    cases last with
    | none => exact of_ok trivial
    | some previous => exact of_ite (fun _ => of_error id) fun _ => of_ok trivial
  refine horder.bind fun _ _ => ?_
  exact (safe_decodeRecord _ _).bind fun _ _ => of_pure trivial

include hr

/-- A place of a table page is read without a fault. -/
theorem safe_tableSlot (page : BtreePage) (i : Nat) : Safe (tableSlot r page i) := by
  refine of_ite (fun _ => ?_) fun _ => ?_
  · refine of_ite (fun _ => of_ok trivial) fun _ => ?_
    exact (safe_cell hr page i).bind fun _ _ =>
      (safe_leafCell _ _).bind fun _ _ => of_pure trivial
  · refine of_ite (fun _ => ?_) fun _ => ?_
    · exact (safe_cell hr page i).bind fun _ _ =>
        (safe_tableInterior _ _).bind fun _ _ => of_pure trivial
    · exact of_ite (fun _ => (safe_rightMostOf page).bind fun _ _ => of_pure trivial)
        fun _ => of_ok trivial

/-- A place of an index page as well. -/
theorem safe_indexSlot (page : BtreePage) (i : Nat) : Safe (indexSlot r page i) := by
  have hentry : ∀ n, Safe (do
      let cell ← r.cell page n
      let payload ← IndexScan.payloadCell page.number cell
      return some (Slot.record (P := Nat) payload)) := fun n =>
    (safe_cell hr page n).bind fun _ _ => (safe_payloadCell _ _).bind fun _ _ => of_pure trivial
  refine of_ite (fun _ => ?_) fun _ => ?_
  · exact of_ite (fun _ => of_ok trivial) fun _ => hentry i
  · refine of_ite (fun _ => ?_) fun _ => ?_
    · refine of_ite (fun _ => ?_) fun _ => ?_
      · exact (safe_cell hr page _).bind fun _ _ =>
          (safe_indexInterior _ _).bind fun _ _ => of_pure trivial
      · exact of_ite (fun _ => (safe_rightMostOf page).bind fun _ _ => of_pure trivial)
          fun _ => of_ok trivial
    · exact of_ite (fun _ => hentry _) fun _ => of_ok trivial

theorem safe_childPage (k : Scan.Kind F A) (c : Nat) : Safe (childPage k r c) :=
  (gives_btreePage hr c).bind fun _ _ => (gives_refuse _ _).bind fun _ _ => of_pure trivial

/-- What a walk fails with is never a fault. -/
theorem pageGraph_fails (hslot : ∀ page i, Safe (slot page i))
    (haccept : ∀ acc x, Safe (accept acc x)) (h : Fails (pageGraph k r slot accept) e) :
    ¬ e.Fault := by
  rcases h with ⟨p, i, h⟩ | ⟨acc, x, h⟩ | ⟨c, rfl⟩ | ⟨c, h⟩
  · exact ((gives_btreePage hr p).bind fun page _ => hslot page i).error h
  · exact (haccept acc x).error h
  · exact id
  · exact ((safe_childPage hr k c).map (S := fun _ => True) fun _ _ => trivial).error h

end Faults

/-! ### Rows -/

/-- A row and the leaf cell it is. -/
def RowOf (r : Reader) (row : TableRow) (record : TableRecord) : Prop :=
  row.rowid = record.rowid ∧ decodeRecord record.payload r.header.textEncoding = .ok row.values

/-- A row that is accepted is its record's, and after the last. -/
theorem rowOf_ok {rowid : Int} {payload : Bytes} {row : TableRow}
    (h : TableScan.rowOf r number last rowid payload = .ok (last', row)) :
    (row.rowid = rowid ∧ decodeRecord payload r.header.textEncoding = .ok row.values)
      ∧ last' = some rowid ∧ ∀ previous, last = some previous → previous < row.rowid := by
  obtain ⟨_, horder, h⟩ := bind_eq_ok.mp h
  obtain ⟨values, hvalues, h⟩ := bind_eq_ok.mp h
  cases h
  refine ⟨⟨rfl, hvalues⟩, rfl, ?_⟩
  rintro previous rfl
  refine not_le.mp fun hle => ?_
  rw [TableScan.checkOrder.eq_def] at horder
  dsimp only at horder
  rw [if_pos hle] at horder
  nomatch horder

/-- The entries that an index scan gives are its payloads, decoded. -/
theorem values_of_acceptAll {payloads : List Bytes} {rows : List (List SqliteValue)}
    {acc acc' : Unit} (h : acceptAll (indexGraph r) acc payloads = .ok (acc', rows)) :
    List.Forall₂ (fun values payload => decodeRecord payload r.header.textEncoding = .ok values)
      rows payloads := by
  induction payloads generalizing rows acc with
  | nil =>
      cases h
      exact .nil
  | cons payload payloads ih =>
      obtain ⟨_, values, rows', hvalues, hrest, rfl⟩ := acceptAll_cons.mp h
      refine .cons ?_ (ih hrest)
      have hmap : (decodeRecord payload r.header.textEncoding).map (fun values => ((), values))
        = .ok ((), values) := hvalues
      cases hd : decodeRecord payload r.header.textEncoding with
      | error e =>
          rw [hd] at hmap
          nomatch hmap
      | ok values' =>
          rw [hd] at hmap
          cases hmap
          rfl

/-- The rows of the records, which are in the order of their rowids. -/
theorem rows_of_acceptAll {records : List TableRecord} {rows : List TableRow}
    (h : acceptAll (tableGraph r) last records = .ok (last', rows)) :
    List.Forall₂ (RowOf r) rows records ∧ rows.Pairwise (·.rowid < ·.rowid)
      ∧ ∀ previous, last = some previous → ∀ row ∈ rows, previous < row.rowid := by
  induction records generalizing last rows with
  | nil =>
      cases h
      exact ⟨.nil, .nil, nofun⟩
  | cons record records ih =>
      obtain ⟨last₁, row, rows', hrow, hrest, rfl⟩ := acceptAll_cons.mp h
      obtain ⟨hrows, hsorted, hbelow⟩ := ih hrest
      obtain ⟨hrecord, hlast, hafter⟩ := rowOf_ok hrow
      have hfirst : ∀ row' ∈ rows', row.rowid < row'.rowid := by
        rw [hrecord.1]
        exact hbelow record.rowid hlast
      refine ⟨.cons hrecord hrows, .cons hfirst hsorted, ?_⟩
      intro previous hprevious row' hrow'
      have hlt := hafter previous hprevious
      rcases mem_cons.mp hrow' with rfl | hrow'
      · exact hlt
      · exact hlt.trans (hfirst row' hrow')

/-! ## The result -/

/-- **SCANS END ON ANY BYTES AND MISS NOTHING**.  Whatever a file holds and
    wherever a scan starts, it ends after finitely many calls, it goes into no
    page twice, and at most its last answer is an error, which never stands for
    a fault.  Without an error the pages that the root leads to are a tree; the
    rows of a table are its leaf cells in order, by ascending rowid, and those
    of an index its leaf and interior cells in order. -/
theorem scans_end_and_miss_nothing (r : Reader) (root : Nat) :
    (∀ scan, TableScan.new r root = .ok scan → ∃ answers,
      Exhausts (TableScan.iter r) .outOfFuel (pages Frame.page) (tableGraph r) root none scan
        answers ∧
      (r.source.Sound → ∀ e, .error e ∈ answers → ¬ e.Fault) ∧
      ((∀ e, .error e ∉ answers) → ∃ records pages rows, Whole (tableGraph r) root records pages
        ∧ answers = rows.map .ok ∧ List.Forall₂ (RowOf r) rows records
        ∧ rows.Pairwise (·.rowid < ·.rowid))) ∧
    (∀ scan, IndexScan.new r root = .ok scan → ∃ answers,
      Exhausts (IndexScan.iter r) .outOfFuel (pages IndexFrame.page) (indexGraph r) root ()
        scan answers ∧
      (r.source.Sound → ∀ e, .error e ∈ answers → ¬ e.Fault) ∧
      ((∀ e, .error e ∉ answers) → ∃ payloads pages rows, Whole (indexGraph r) root payloads pages
        ∧ answers = rows.map .ok ∧ List.Forall₂ (fun values payload =>
          decodeRecord payload r.header.textEncoding = .ok values) rows payloads)) := by
  constructor
  · intro scan hscan
    obtain ⟨answers, h, -⟩ := scan_exhausts (tableScan_walks r) (tableGraph_ended r)
      (tableGraph_bounded r) hscan
    refine ⟨answers, h, ?_, ?_⟩
    · intro hr e he
      exact pageGraph_fails hr (safe_tableSlot hr) (fun _ _ => safe_rowOf _ _ _ _) (h.fails e he)
    · intro hclean
      obtain ⟨-, records, pages, last, rows, hwhole, hall, hanswers⟩ := h.complete hclean
      obtain ⟨hrows, hsorted, -⟩ := rows_of_acceptAll hall
      exact ⟨records, pages, rows, hwhole, hanswers, hrows, hsorted⟩
  · intro scan hscan
    obtain ⟨answers, h, -⟩ := scan_exhausts (indexScan_walks r) (indexGraph_ended r)
      (indexGraph_bounded r) hscan
    refine ⟨answers, h, ?_, ?_⟩
    · intro hr e he
      exact pageGraph_fails hr (safe_indexSlot hr)
        (fun _ payload => (safe_decodeRecord payload _).map fun _ _ => trivial) (h.fails e he)
    · intro hclean
      obtain ⟨-, payloads, pages, _, rows, hwhole, hall, hanswers⟩ := h.complete hclean
      exact ⟨payloads, pages, rows, hwhole, hanswers, values_of_acceptAll hall⟩

/-- A page of 512 bytes, its cells at the end. -/
def pageOf (head cells : Bytes) : Bytes :=
  head ++ (List.replicate (512 - head.length - cells.length) 0 ++ cells)

/-- A file of eight pages: an empty schema; a table of two leaves (3 and 4), the
    last of its rows going on in page 5; an index of two leaves (7 and 8). -/
def twoTrees : Bytes :=
  pageOf (MAGIC ++ [2, 0, 1, 1, 0, 64, 32, 32, 0, 0, 0, 1, 0, 0, 0, 8] ++ List.replicate 12 0
      ++ [0, 0, 0, 4] ++ List.replicate 8 0 ++ [0, 0, 0, 1] ++ List.replicate 32 0
      ++ [0, 0, 0, 1, 0, 0, 0, 0] ++ [13, 0, 0, 0, 0, 2, 0, 0]) []
    ++ pageOf [5, 0, 0, 0, 1, 1, 251, 0, 0, 0, 0, 4, 1, 251] [0, 0, 0, 3, 2]
    ++ pageOf [13, 0, 0, 0, 2, 1, 245, 0, 1, 251, 1, 245] [4, 2, 2, 16, 97, 98, 3, 1, 2, 1, 7]
    ++ pageOf [13, 0, 0, 0, 2, 1, 153, 0, 1, 252, 1, 153] ([132, 88, 9, 3, 137, 54]
      ++ List.replicate 89 8 ++ [0, 0, 0, 5] ++ [2, 5, 2, 0])
    ++ pageOf [0, 0, 0, 0] (List.replicate 508 8)
    ++ pageOf [2, 0, 0, 0, 1, 1, 246, 0, 0, 0, 0, 8, 1, 246] [0, 0, 0, 7, 5, 3, 1, 1, 20, 2]
    ++ pageOf [10, 0, 0, 0, 1, 1, 250, 0, 1, 250] [5, 3, 1, 1, 10, 1]
    ++ pageOf [10, 0, 0, 0, 1, 1, 250, 0, 1, 250] [5, 3, 1, 1, 30, 5]

/-- The rows of its table. -/
def twoTreesRows : List TableRow :=
  [⟨1, [.integer 7]⟩, ⟨2, [.blob [97, 98]]⟩, ⟨5, [.null]⟩, ⟨9, [.blob (List.replicate 597 8)]⟩]

/-- The entries of its index. -/
def twoTreesEntries : List (List SqliteValue) :=
  [[.integer 10, .integer 1], [.integer 20, .integer 2], [.integer 30, .integer 5]]

/-- Both scans of the file, run to their ends. -/
theorem twoTrees_drained : (do
      let r ← Reader.open (sliceSource twoTrees)
      let scan ← TableScan.new r 2
      let index ← IndexScan.new r 6
      return ((TableScan.iter r).drain .outOfFuel 20 5 scan,
        (IndexScan.iter r).drain .outOfFuel 20 4 index))
    = .ok (some twoTreesRows, some twoTreesEntries) := by
  decide +kernel

/-- Both scans of the file: the rows by ascending rowid, and the entries, the
    one of the interior page between those of the leaves. -/
theorem scans_end_and_miss_nothing_two_trees : ∃ r scan index,
    Reader.open (sliceSource twoTrees) = .ok r ∧ TableScan.new r 2 = .ok scan ∧
    IndexScan.new r 6 = .ok index ∧
    Exhausts (TableScan.iter r) .outOfFuel (pages Frame.page) (tableGraph r) 2 none scan
      (twoTreesRows.map .ok) ∧
    Exhausts (IndexScan.iter r) .outOfFuel (pages IndexFrame.page) (indexGraph r) 6 () index
      (twoTreesEntries.map .ok) := by
  obtain ⟨r, hopen, hrest⟩ := bind_eq_ok.mp twoTrees_drained
  obtain ⟨scan, hscan, hrest⟩ := bind_eq_ok.mp hrest
  obtain ⟨index, hindex, hdrained⟩ := bind_eq_ok.mp hrest
  obtain ⟨hrows, hentries⟩ := Prod.mk.inj (Except.ok.inj hdrained)
  obtain ⟨answers, htable, -⟩ := (scans_end_and_miss_nothing r 2).1 scan hscan
  obtain ⟨answers', hentry, -⟩ := (scans_end_and_miss_nothing r 6).2 index hindex
  refine ⟨r, scan, index, hopen, hscan, hindex, ?_, ?_⟩
  · rwa [htable.answers_eq hrows] at htable
  · rwa [hentry.answers_eq hentries] at hentry

end QuantySqlite
