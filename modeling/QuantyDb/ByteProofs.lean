import QuantyDb.ByteModel
import QuantyDb.CallRules

/-! # Kept nodes never drift from their bytes

    Encoding a node into a page is a function of the node and of the few bytes
    it leaves alone (`frame`), so a page is right for a node when encoding the
    node into it again changes nothing.  That is what the batch keeps of every
    node it keeps (`Kept`): encoding establishes it, an insert in place keeps
    it because the page it leaves is the page that encoding the larger node
    would leave, and every other write forgets the node. -/

namespace QuantyBytes

open QuantyKey QuantyPage QuantyPager QuantyBtree QuantyCodec QuantyNode LittleEndian ByteBuffer
open Node
open PageKind
open List hiding count

/-! ## Stores -/

/-- A writer that stores certain bytes where it is told to, if they are in
    range; pages have at most 65536 bytes. -/
def Writes (w : Nat → Bytes → Except Error (Bytes × Nat)) (bs : Bytes) : Prop :=
  ∀ off buf, off ≤ buf.length → buf.length ≤ 2 ^ 16 →
    (off + bs.length ≤ buf.length → w off buf = .ok (blit off bs buf, off + bs.length)) ∧
    ∀ r, w off buf = .ok r → off + bs.length ≤ buf.length

theorem writes_store (chunks : List Bytes) : Writes (store chunks) chunks.flatten := by
  intro off buf hoff _
  rw [store, stores_eq hoff]
  constructor
  · intro hfits
    rw [if_pos hfits]
  · intro r hr
    by_contra hover
    rw [if_neg hover] at hr
    nomatch hr

/-- A writer that refuses what could not be in range anyway. -/
theorem Writes.guard {w : Nat → Bytes → Except Error (Bytes × Nat)} {bs : Bytes} {c : Prop}
    [Decidable c] {e : Error} (h : Writes w bs) (hc : c → 2 ^ 16 < bs.length) :
    Writes (fun off buf => if c then .error e else w off buf) bs := by
  intro off buf hoff hlen
  obtain ⟨hok, hfits⟩ := h off buf hoff hlen
  constructor
  · intro hin
    dsimp only
    rw [if_neg (fun hc' => absurd (hc hc') (by omega))]
    exact hok hin
  · intro r hr
    dsimp only at hr
    split_ifs at hr
    exact hfits r hr

theorem Writes.seq {w w' : Nat → Bytes → Except Error (Bytes × Nat)} {bs bs' : Bytes}
    (h : Writes w bs) (h' : Writes w' bs') :
    Writes (fun off buf =>
      match w off buf with
      | .error e => .error e
      | .ok (buf, off) => w' off buf) (bs ++ bs') := by
  intro off buf hoff hlen
  obtain ⟨hok, hfits⟩ := h off buf hoff hlen
  rw [length_append, ← Nat.add_assoc]
  constructor
  · intro hin
    have hfirst : off + bs.length ≤ buf.length := by omega
    have hblit := length_blit hfirst
    dsimp only
    rw [hok hfirst]
    dsimp only
    rw [((h' _ _ (hblit ▸ hfirst) (hblit ▸ hlen)).1 (hblit ▸ hin)), blit_blit hin]
  · intro r hr
    dsimp only at hr
    split at hr
    · nomatch hr
    · next buf₁ off₁ hw =>
      have hfirst := hfits _ hw
      have hblit := length_blit hfirst
      obtain ⟨rfl, rfl⟩ := Prod.mk.inj (Except.ok.inj (hw.symm.trans (hok hfirst)))
      have := (h' _ _ (hblit ▸ hfirst) (hblit ▸ hlen)).2 r hr
      rwa [hblit] at this

/-! ## Cells -/

theorem writes_key (key : Key) (flag : UInt8) : Writes (writeKey key flag) (keyCell key flag) := by
  have hbytes : keyCell key flag = [le 2 key.length, [flag], key.bytes].flatten := by
    simp [keyCell]
  rw [hbytes]
  refine (writes_store _).guard ?_
  intro hlong
  have hkey : key.bytes.length = key.length := rfl
  simp only [flatten_cons, length_append, length_le, hkey]
  omega

theorem writes_leafCell (cell : Key × ValueRef) :
    Writes (writeLeafCell cell) (leafCell cell.1 cell.2) := by
  obtain ⟨key, v⟩ := cell
  cases v with
  | inline v =>
      refine (writes_key key VFLAG_INLINE).seq ?_
      have hbytes : le 4 v.length ++ v = [le 4 v.length, v].flatten := by simp
      rw [hbytes]
      refine (writes_store _).guard ?_
      intro hlong
      simp only [flatten_cons, length_append, length_le]
      omega
  | overflow head len =>
      refine (writes_key key VFLAG_OVERFLOW).seq ?_
      have hbytes : layout [(8, head), (8, len)] = [le 8 head, le 8 len].flatten := by
        simp [layout]
      rw [hbytes]
      exact writes_store _

theorem writes_branchCell (cell : Key × PageId) :
    Writes (writeBranchCell cell) (branchCell cell.1 cell.2) := by
  refine (writes_key cell.1 0).seq ?_
  have hbytes : le 8 cell.2 = [le 8 cell.2].flatten := by simp
  rw [hbytes]
  exact writes_store _

theorem writes_cells {α : Type} {cell : α → Nat → Bytes → Except Error (Bytes × Nat)}
    {bs : α → Bytes} (h : ∀ a, Writes (cell a) (bs a)) (l : List α) :
    Writes (writeCells cell l) (l.flatMap bs) := by
  induction l with
  | nil =>
      intro off buf hoff _
      exact ⟨fun _ => by simp [writeCells], fun _ _ => hoff⟩
  | cons a rest ih => exact (h a).seq ih

/-- The bytes behind the header of a page that holds a node. -/
def body (n : Node) : Bytes := Page.body (.node n)

theorem writeBody_spec (n : Node) {buf : Bytes} (hhead : PAGE_HEADER_LEN ≤ buf.length)
    (hlen : buf.length ≤ 2 ^ 16) :
    (PAGE_HEADER_LEN + (body n).length ≤ buf.length →
      writeBody n buf
        = .ok (blit PAGE_HEADER_LEN (body n) buf, PAGE_HEADER_LEN + (body n).length)) ∧
    ∀ r, writeBody n buf = .ok r → PAGE_HEADER_LEN + (body n).length ≤ buf.length := by
  cases n with
  | leaf es => exact writes_cells writes_leafCell es PAGE_HEADER_LEN buf hhead hlen
  | branch f es =>
      have hbody : body (.branch f es)
          = [le 8 f].flatten ++ es.flatMap (fun e => branchCell e.1 e.2) := by
        simp [body, Page.body]
      rw [hbody]
      exact (writes_store [le 8 f]).seq (writes_cells writes_branchCell es) PAGE_HEADER_LEN buf
        hhead hlen

theorem length_leafCell (key : Key) (v : ValueRef) :
    (leafCell key v).length = leafCellSize key v := by
  have hkey : key.bytes.length = key.length := rfl
  cases v <;> simp [leafCell, leafCellSize, keyCell, length_layout, hkey] <;> omega

theorem length_branchCell (key : Key) (child : PageId) :
    (branchCell key child).length = branchCellSize key := by
  have hkey : key.bytes.length = key.length := rfl
  simp [branchCell, branchCellSize, keyCell, hkey]
  omega

theorem length_leafBody (es : List (Key × ValueRef)) :
    (es.flatMap fun e => leafCell e.1 e.2).length = leafCells es := by
  induction es with
  | nil => rfl
  | cons e rest ih =>
      rw [flatMap_cons, length_append, ih, length_leafCell, leafCells_cons]

theorem length_branchBody (es : List (Key × PageId)) :
    (es.flatMap fun e => branchCell e.1 e.2).length = branchCells es := by
  induction es with
  | nil => rfl
  | cons e rest ih =>
      rw [flatMap_cons, length_append, ih, length_branchCell, branchCells_cons]

theorem length_body (n : Node) : PAGE_HEADER_LEN + (body n).length = n.encodedSize := by
  cases n with
  | leaf es => rw [body, Page.body, length_leafBody, encodedSize]
  | branch f es =>
      rw [body, Page.body, length_append, length_le, length_branchBody, encodedSize]

/-- A node that fits a page has few enough entries for its count. -/
theorem entryCount_lt {n : Node} (h : n.encodedSize ≤ 2 ^ 16) : entryCount n < 2 ^ 16 := by
  cases n with
  | leaf es =>
      have hcells : (es.map fun e => leafCellSize e.1 e.2).length ≤ leafCells es := by
        refine length_le_sum_of_one_le _ ?_
        simp only [mem_map, forall_exists_index, and_imp, forall_apply_eq_imp_iff₂]
        intro e _
        rcases e with ⟨key, v | ⟨head, len⟩⟩ <;> simp only [leafCellSize] <;> omega
      rw [length_map] at hcells
      simp only [encodedSize, PAGE_HEADER_LEN] at h
      simp only [entryCount]
      omega
  | branch f es =>
      have hcells : (es.map fun e => branchCellSize e.1).length ≤ branchCells es := by
        refine length_le_sum_of_one_le _ ?_
        simp only [mem_map, forall_exists_index, and_imp, forall_apply_eq_imp_iff₂]
        intro e _
        simp only [branchCellSize]
        omega
      rw [length_map] at hcells
      simp only [encodedSize, PAGE_HEADER_LEN] at h
      simp only [entryCount]
      omega

/-! ## Whole pages -/

/-- What encoding writes into the header: type, flags and count. -/
def marks (n : Node) : Bytes := [byte (ofNode n), 0] ++ le 2 (entryCount n)

/-- The page that encoding leaves; of the old one it keeps the checksum and
    the commit that sealed it. -/
def frame (n : Node) (buf : Bytes) : Bytes :=
  buf.take 4 ++ (marks n ++ (slice 8 8 buf
    ++ (body n ++ List.replicate (buf.length - n.encodedSize) 0)))

section Frame

variable {n : Node} {buf : Bytes}

theorem length_marks (n : Node) : (marks n).length = 4 := by simp [marks]

/-- A page cut at its header. -/
theorem exists_header (h : PAGE_HEADER_LEN ≤ buf.length) :
    ∃ A T L R, buf = A ++ (T ++ (L ++ R)) ∧ A.length = 4 ∧ T.length = 4 ∧ L.length = 8 := by
  rw [PAGE_HEADER_LEN] at h
  obtain ⟨A, T, R, rfl, hA, hT⟩ := exists_cut (show 4 + 4 ≤ buf.length by omega)
  have hR : 8 ≤ R.length := by
    simp only [length_append] at h
    omega
  obtain ⟨L, R, rfl, hL⟩ := exists_front hR
  exact ⟨A, T, L, R, rfl, hA, hT, hL⟩

/-- The frame of a page in pieces. -/
theorem frame_append {A T L R : Bytes} (hA : A.length = 4) (hT : T.length = 4) (hL : L.length = 8) :
    frame n (A ++ (T ++ (L ++ R))) = A ++ (marks n ++ (L
      ++ (body n ++ List.replicate (16 + R.length - n.encodedSize) 0))) := by
  have htake : (A ++ (T ++ (L ++ R))).take 4 = A := take_left' hA
  have hslice : slice 8 8 (A ++ (T ++ (L ++ R))) = L := by
    rw [← append_assoc]
    exact slice_append (by rw [length_append, hA, hT]) hL
  have hlen : (A ++ (T ++ (L ++ R))).length = 16 + R.length := by
    simp only [length_append, hA, hT, hL]
    omega
  rw [frame, htake, hslice, hlen]

theorem length_frame (hhead : PAGE_HEADER_LEN ≤ buf.length) (h : n.encodedSize ≤ buf.length) :
    (frame n buf).length = buf.length := by
  obtain ⟨A, T, L, R, rfl, hA, hT, hL⟩ := exists_header hhead
  have hbody := length_body n
  rw [PAGE_HEADER_LEN] at hbody
  rw [frame_append hA hT hL]
  simp only [length_append, length_replicate, length_marks, hA, hT, hL] at h ⊢
  omega

/-- Behind the header an encoding does not depend on what the buffer held. -/
theorem drop_frame (hhead : PAGE_HEADER_LEN ≤ buf.length) :
    (frame n buf).drop PAGE_HEADER_LEN
      = body n ++ List.replicate (buf.length - n.encodedSize) 0 := by
  obtain ⟨A, T, L, R, rfl, hA, hT, hL⟩ := exists_header hhead
  have hfront : (A ++ (marks n ++ L)).length = PAGE_HEADER_LEN := by
    simp only [length_append, length_marks, hA, hL, PAGE_HEADER_LEN]
  have hlen : 16 + R.length = (A ++ (T ++ (L ++ R))).length := by
    simp only [length_append, hA, hT, hL]
    omega
  rw [frame_append hA hT hL, hlen]
  have hcut : ∀ X, (A ++ (marks n ++ L) ++ X).drop PAGE_HEADER_LEN = X := by
    intro X
    rw [← hfront]
    exact drop_left
  simpa only [append_assoc] using hcut _

/-- Encoding again writes what is there. -/
theorem frame_frame (hhead : PAGE_HEADER_LEN ≤ buf.length) (h : n.encodedSize ≤ buf.length)
    (n' : Node) : frame n' (frame n buf) = frame n' buf := by
  have hlen := length_frame hhead h
  obtain ⟨A, T, L, R, rfl, hA, hT, hL⟩ := exists_header hhead
  rw [frame_append hA hT hL] at hlen ⊢
  rw [frame_append hA (length_marks n) hL, frame_append hA hT hL]
  simp only [length_append, length_marks, hA, hT, hL] at hlen
  have hrest : (body n ++ List.replicate (16 + R.length - n.encodedSize) 0).length = R.length := by
    rw [length_append]
    omega
  rw [hrest]

/-- **ENCODING** returns when the node fits, and leaves its frame. -/
theorem encodeNode_eq_ok (hhead : PAGE_HEADER_LEN ≤ buf.length) (hlen : buf.length ≤ 2 ^ 16)
    {r : Bytes × Nat} : encodeNode n buf = .ok r ↔
      n.encodedSize ≤ buf.length ∧ r = (frame n buf, n.encodedSize) := by
  obtain ⟨A, T, L, R, rfl, hA, hT, hL⟩ := exists_header hhead
  -- the header as it stands when the body is written
  have hinit : blit 6 (le 2 (entryCount n)) (initHeader (ofNode n) (A ++ (T ++ (L ++ R))))
      = A ++ (marks n ++ (L ++ R)) := by
    have hsix : (A ++ [byte (ofNode n), 0]).length = 6 := by simp [hA]
    have hcut : A ++ ([byte (ofNode n), 0, 0, 0] ++ (L ++ R))
        = A ++ [byte (ofNode n), 0] ++ ([0, 0] ++ (L ++ R)) := by simp
    rw [initHeader, blit_append hA hT, hcut, blit_append hsix (by rw [length_le]; rfl), marks]
    simp only [append_assoc]
  have hsixteen : (A ++ (marks n ++ L)).length = PAGE_HEADER_LEN := by
    simp only [length_append, length_marks, hA, hL, PAGE_HEADER_LEN]
  have hpage : A ++ (marks n ++ (L ++ R)) = A ++ (marks n ++ L) ++ R := by simp
  have hsame : (A ++ (marks n ++ (L ++ R))).length = (A ++ (T ++ (L ++ R))).length := by
    simp only [length_append, length_marks, hT]
  have hspec := writeBody_spec n (hsame ▸ hhead) (hsame ▸ hlen)
  rw [length_body, hsame] at hspec
  -- the page once the body is written and the tail zeroed
  have hfill : n.encodedSize ≤ (A ++ (T ++ (L ++ R))).length →
      (blit PAGE_HEADER_LEN (body n) (A ++ (marks n ++ (L ++ R)))).take n.encodedSize
        ++ List.replicate ((blit PAGE_HEADER_LEN (body n) (A ++ (marks n ++ (L ++ R)))).length
          - n.encodedSize) 0 = frame n (A ++ (T ++ (L ++ R))) := by
    intro hfits
    have hbody := length_body n
    have hR : (body n).length ≤ R.length := by
      simp only [length_append, hA, hT, hL] at hfits
      rw [PAGE_HEADER_LEN] at hbody
      omega
    obtain ⟨R₁, R₂, rfl, hR₁⟩ := exists_front hR
    have htaken : (A ++ (marks n ++ L) ++ body n).length = n.encodedSize := by
      rw [length_append, hsixteen, hbody]
    have hwritten : blit PAGE_HEADER_LEN (body n) (A ++ (marks n ++ (L ++ (R₁ ++ R₂))))
        = A ++ (marks n ++ L) ++ body n ++ R₂ := by
      rw [hpage, blit_append hsixteen hR₁, append_assoc _ (body n)]
    have htail : (A ++ (marks n ++ L) ++ body n ++ R₂).length - n.encodedSize
        = 16 + (R₁ ++ R₂).length - n.encodedSize := by
      rw [length_append, htaken, ← hbody, PAGE_HEADER_LEN, length_append, hR₁]
      omega
    rw [hwritten, take_left' htaken, htail, frame_append hA hT hL]
    simp only [append_assoc]
  rw [encodeNode, hinit]
  constructor
  · intro h
    split_ifs at h
    split at h
    · cases h
    · next buf' off hwrite =>
      have hfits := hspec.2 _ hwrite
      obtain ⟨rfl, rfl⟩ := Prod.mk.inj (Except.ok.inj (hwrite.symm.trans (hspec.1 hfits)))
      rw [hfill hfits] at h
      exact ⟨hfits, (Except.ok.inj h).symm⟩
  · rintro ⟨hfits, rfl⟩
    rw [if_neg (not_le.mpr (entryCount_lt (hfits.trans hlen))), hspec.1 hfits]
    dsimp only
    rw [hfill hfits]

/-- What a framed page is made of. -/
theorem exists_pieces (hhead : PAGE_HEADER_LEN ≤ buf.length) (hframe : frame n buf = buf) :
    ∃ A L k, buf = A ++ (marks n ++ (L ++ (body n ++ List.replicate k 0)))
      ∧ A.length = 4 ∧ L.length = 8 := by
  obtain ⟨A, T, L, R, rfl, hA, hT, hL⟩ := exists_header hhead
  exact ⟨A, L, _, hframe.symm.trans (frame_append hA hT hL), hA, hL⟩

section Pieces

variable {A L rest : Bytes} {k : Nat}

theorem frame_pieces (hA : A.length = 4) (hL : L.length = 8) (n' : Node) :
    frame n' (A ++ (marks n ++ (L ++ (body n ++ List.replicate k 0))))
      = A ++ (marks n' ++ (L ++ (body n'
        ++ List.replicate (n.encodedSize + k - n'.encodedSize) 0))) := by
  have hbody := length_body n
  rw [PAGE_HEADER_LEN] at hbody
  rw [frame_append hA (length_marks n) hL, length_append, length_replicate,
    ← Nat.add_assoc, hbody]

theorem count_pieces (hA : A.length = 4) (h : entryCount n < 2 ^ 16) :
    count (A ++ (marks n ++ rest)) = entryCount n := by
  have hsix : (A ++ [byte (ofNode n), 0]).length = 6 := by simp [hA]
  have hcut : A ++ (marks n ++ rest)
      = A ++ [byte (ofNode n), 0] ++ (le 2 (entryCount n) ++ rest) := by
    simp [marks]
  rw [count, hcut, slice_append hsix (length_le 2 _), ofLe_le]
  exact h

theorem recount_pieces (hA : A.length = 4) (n n' : Node)
    (hkind : ofNode n = ofNode n') :
    blit 6 (le 2 (entryCount n')) (A ++ (marks n ++ rest)) = A ++ (marks n' ++ rest) := by
  have hsix : (A ++ [byte (ofNode n), 0]).length = 6 := by simp [hA]
  have hcut : A ++ (marks n ++ rest)
      = A ++ [byte (ofNode n), 0] ++ (le 2 (entryCount n) ++ rest) := by
    simp [marks]
  rw [hcut, blit_append hsix (by rw [length_le, length_le]), marks, hkind]
  simp only [append_assoc]

end Pieces

/-- The cells of a leaf around an index. -/
theorem body_cut (U V : List (Key × ValueRef)) (cell : Key × ValueRef) :
    ∃ X Y, body (.leaf (U ++ V)) = X ++ Y
      ∧ body (.leaf (U ++ cell :: V)) = X ++ (leafCell cell.1 cell.2 ++ Y)
      ∧ X.length = leafCells U ∧ Y.length = leafCells V := by
  refine ⟨U.flatMap fun e => leafCell e.1 e.2, V.flatMap fun e => leafCell e.1 e.2, ?_, ?_,
    length_leafBody U, length_leafBody V⟩
  · rw [body, Page.body, flatMap_append]
  · rw [body, Page.body, flatMap_append, flatMap_cons]

theorem cellOffset_eq (U V : List (Key × ValueRef)) :
    cellOffset (U ++ V) (leaf (U ++ V)).encodedSize U.length
      = PAGE_HEADER_LEN + leafCells U := by
  rw [cellOffset]
  split
  · next hlast =>
    obtain rfl : V = [] := by
      rw [length_append] at hlast
      exact length_eq_zero_iff.mp (by omega)
    rw [append_nil, encodedSize]
  · rw [take_left]

/-- The bytes of an insert: the tail moves up, the cell fills the gap, and the
    count goes up. -/
theorem insertCellBytes_append {P Y Z W : Bytes} (cell : Key × ValueRef)
    (hZ : Z.length = (leafCell cell.1 cell.2).length)
    (hlen : (P ++ (Y ++ (Z ++ W))).length ≤ 2 ^ 16) :
    insertCellBytes P.length (P.length + Y.length) cell (P ++ (Y ++ (Z ++ W)))
      = .ok (blit 6 (le 2 (count (P ++ (leafCell cell.1 cell.2 ++ (Y ++ W))) + 1))
          (P ++ (leafCell cell.1 cell.2 ++ (Y ++ W)))) := by
  have hsize := length_leafCell cell.1 cell.2
  have hpage : (P ++ (Y ++ (Z ++ W))).length
      = P.length + (Y.length + ((leafCell cell.1 cell.2).length + W.length)) := by
    simp only [length_append, hZ]
  have hmove : P.length + (leafCell cell.1 cell.2).length
      + (slice P.length (P.length + Y.length - P.length) (P ++ (Y ++ (Z ++ W)))).length
      ≤ (P ++ (Y ++ (Z ++ W))).length := by
    rw [slice_append rfl (by omega), hpage]
    omega
  have hmoved := length_blit hmove
  rw [insertCellBytes, if_neg (by rw [hpage]; omega), ← hsize]
  rw [((writes_leafCell cell P.length
    (copyWithin P.length (P.length + Y.length) (P.length + (leafCell cell.1 cell.2).length)
      (P ++ (Y ++ (Z ++ W)))) (by rw [copyWithin, hmoved]; omega)
    (by rw [copyWithin, hmoved]; exact hlen)).1 (by rw [copyWithin, hmoved]; omega)),
    blit_copyWithin hZ]

/-- **INSERTING IN PLACE** leaves the page that encoding the larger leaf would. -/
theorem insertCellBytes_eq {es : List (Key × ValueRef)} {i : Nat} (cell : Key × ValueRef)
    (hi : i ≤ es.length) (hhead : PAGE_HEADER_LEN ≤ buf.length) (hlen : buf.length ≤ 2 ^ 16)
    (hframe : frame (.leaf es) buf = buf)
    (hfits : (leaf es).encodedSize + leafCellSize cell.1 cell.2 ≤ buf.length) :
    insertCellBytes (cellOffset es (leaf es).encodedSize i) (leaf es).encodedSize cell buf
      = .ok (frame (.leaf (es.insertIdx i cell)) buf) := by
  obtain ⟨U, V, rfl, rfl⟩ := exists_front hi
  obtain ⟨A, L, k, rfl, hA, hL⟩ := exists_pieces hhead hframe
  obtain ⟨X, Y, hold, hnew, hX, hY⟩ := body_cut U V cell
  have hinsert : (U ++ V).insertIdx U.length cell = U ++ cell :: V :=
    Fan.insertIdx_append U V cell 0
  have hcell := length_leafCell cell.1 cell.2
  have hsize := length_body (.leaf (U ++ V))
  have hbig := length_body (.leaf (U ++ cell :: V))
  rw [hold, length_append] at hsize
  rw [hnew, length_append, length_append] at hbig
  have hbuf : ∀ m, A ++ (marks (.leaf (U ++ V)) ++ (L ++ (body (.leaf (U ++ V))
        ++ List.replicate ((leafCell cell.1 cell.2).length + m) 0)))
      = A ++ (marks (.leaf (U ++ V)) ++ (L ++ X)) ++ (Y
        ++ (List.replicate (leafCell cell.1 cell.2).length 0 ++ List.replicate m 0)) := by
    intro m
    rw [hold, replicate_add]
    simp only [append_assoc]
  obtain ⟨m, rfl⟩ : ∃ m, k = (leafCell cell.1 cell.2).length + m := by
    refine ⟨k - (leafCell cell.1 cell.2).length, ?_⟩
    simp only [length_append, length_replicate, length_marks, hA, hL, hold] at hfits
    rw [PAGE_HEADER_LEN] at hsize
    omega
  have hfront : (A ++ (marks (.leaf (U ++ V)) ++ (L ++ X))).length
      = PAGE_HEADER_LEN + leafCells U := by
    simp only [length_append, length_marks, hA, hL, hX, PAGE_HEADER_LEN]
    omega
  have hused : (leaf (U ++ V)).encodedSize
      = (A ++ (marks (.leaf (U ++ V)) ++ (L ++ X))).length + Y.length := by
    rw [hfront, ← hX]
    omega
  have hcount : entryCount (.leaf (U ++ V)) < 2 ^ 16 := by
    refine entryCount_lt ?_
    omega
  -- the header of the page that is left
  have hleft : A ++ (marks (.leaf (U ++ V)) ++ (L ++ X))
        ++ (leafCell cell.1 cell.2 ++ (Y ++ List.replicate m 0))
      = A ++ (marks (.leaf (U ++ V)) ++ (L ++ (body (.leaf (U ++ cell :: V))
        ++ List.replicate m 0))) := by
    rw [hnew]
    simp only [append_assoc]
  have hone : entryCount (.leaf (U ++ V)) + 1 = entryCount (.leaf (U ++ cell :: V)) := by
    simp only [entryCount, length_append, length_cons]
    omega
  have hzeros : (leaf (U ++ V)).encodedSize + ((leafCell cell.1 cell.2).length + m)
      - (leaf (U ++ cell :: V)).encodedSize = m := by
    omega
  rw [hinsert, cellOffset_eq, frame_pieces hA hL, hzeros, ← hfront, hused, hbuf]
  rw [hbuf] at hlen
  rw [insertCellBytes_append cell (length_replicate ..) hlen, hleft, count_pieces hA hcount,
    hone, recount_pieces hA (.leaf (U ++ V)) (.leaf (U ++ cell :: V)) rfl]

end Frame

end QuantyBytes
