import QuantyDb.ByteProofs
import QuantyDb.NodeProofs

/-! # Nodes through their pages

    Encoding leaves a frame: checksum and commit of the old page, the marks of
    the node, its cells and zeroes.  Each reader of `decode` takes off the
    front exactly what the writer of its cell put there and hands on what
    follows, whatever that is; a loop over the cells then reads back the list
    it was written from, and never looks at the zeroes.

    Page ids and overflow lengths are `u64` in the source and numbers here, so
    `nodeInU64` says that they are. -/

namespace QuantyBytes

open QuantyKey QuantyPage QuantyCodec QuantyNode LittleEndian ByteBuffer
open List hiding count

/-! ## Fields and cells -/

theorem readLe_le {w n : Nat} (h : n < 256 ^ w) (rest : Bytes) :
    readLe w (le w n ++ rest) = some (n, rest) := by
  have hlen : ¬ (le w n ++ rest).length < w := by simp
  rw [readLe, if_neg hlen, take_left' (length_le w n), drop_left' (length_le w n),
    ofLe_le h]

theorem readKey_keyCell {key : Key} (h : key.length < 2 ^ 16) (flag : UInt8) (rest : Bytes) :
    readKey (keyCell key flag ++ rest) = some (key, flag, rest) := by
  have hcell : keyCell key flag ++ rest = le 2 key.length ++ (flag :: (key.bytes ++ rest)) := by
    simp [keyCell]
  have hthree : (le 2 key.length ++ [flag]).length = 3 := by simp
  have hdrop : (le 2 key.length ++ (flag :: (key.bytes ++ rest))).drop 3 = key.bytes ++ rest := by
    rw [show le 2 key.length ++ (flag :: (key.bytes ++ rest))
      = le 2 key.length ++ [flag] ++ (key.bytes ++ rest) by simp]
    exact drop_left' hthree
  have hflag : (le 2 key.length ++ (flag :: (key.bytes ++ rest))).getD 2 0 = flag := by
    simp [getD_eq_getElem?_getD]
  have hshort : ¬ (le 2 key.length ++ (flag :: (key.bytes ++ rest))).length < 3 := by
    simp only [length_append, length_le, length_cons]
    omega
  have hwhole : ¬ (key.bytes ++ rest).length < key.length := by
    rw [length_append]
    exact Nat.not_lt.mpr (Nat.le_add_right key.length rest.length)
  rw [readKey, readKeyRef, hcell, if_neg hshort, take_left' (length_le 2 _), ofLe_le h,
    hdrop, hflag]
  dsimp only
  rw [if_neg hwhole]
  have htake : (key.bytes ++ rest).take key.length = key.bytes := take_left' rfl
  have hrest : (key.bytes ++ rest).drop key.length = rest := drop_left' rfl
  exact congrArg some (Prod.ext htake (Prod.ext rfl hrest))

/-- The numbers of a value are `u64`. -/
def valueInU64 : ValueRef → Prop
  | .inline _ => True
  | .overflow head len => head < 2 ^ 64 ∧ len < 2 ^ 64

/-- The numbers of a node are `u64`. -/
def nodeInU64 : Node → Prop
  | .leaf es => ∀ e ∈ es, valueInU64 e.2
  | .branch f es => f < 2 ^ 64 ∧ ∀ e ∈ es, e.2 < 2 ^ 64

theorem readLeafCell_leafCell {e : Key × ValueRef} (id : PageId)
    (hsize : leafCellSize e.1 e.2 ≤ 2 ^ 16) (h64 : valueInU64 e.2) (rest : Bytes) :
    readLeafCell id (leafCell e.1 e.2 ++ rest) = .ok (e, rest) := by
  obtain ⟨key, v | ⟨head, len⟩⟩ := e
  · simp only [leafCellSize] at hsize
    have hkey : key.length < 2 ^ 16 := by omega
    have hlen : v.length < 256 ^ 4 := by omega
    have hread : readU32 (le 4 v.length ++ (v ++ rest)) = some (v.length, v ++ rest) :=
      readLe_le hlen (v ++ rest)
    simp only [leafCell, append_assoc, readLeafCell, readKey_keyCell hkey, hread, if_true,
      take_left, drop_left]
    rw [if_neg (by simp)]
  · obtain ⟨hhead, hlen⟩ := h64
    simp only [leafCellSize] at hsize
    have hkey : key.length < 2 ^ 16 := by omega
    have hfirst : readU64 (le 8 head ++ (le 8 len ++ rest)) = some (head, le 8 len ++ rest) :=
      readLe_le hhead _
    have hsecond : readU64 (le 8 len ++ rest) = some (len, rest) := readLe_le hlen rest
    have hflag : VFLAG_OVERFLOW ≠ VFLAG_INLINE := by decide
    simp only [leafCell, layout, flatMap_cons, flatMap_nil, append_nil,
      append_assoc, readLeafCell, readKey_keyCell hkey, hflag, if_false, if_true, hfirst,
      hsecond]

theorem readBranchCell_branchCell {e : Key × PageId} (id : PageId)
    (hsize : branchCellSize e.1 ≤ 2 ^ 16) (h64 : e.2 < 2 ^ 64) (rest : Bytes) :
    readBranchCell id (branchCell e.1 e.2 ++ rest) = .ok (e, rest) := by
  obtain ⟨key, child⟩ := e
  simp only [branchCellSize] at hsize
  have hkey : key.length < 2 ^ 16 := by omega
  have hread : readU64 (le 8 child ++ rest) = some (child, rest) := readLe_le h64 rest
  simp only [branchCell, append_assoc, readBranchCell, readKey_keyCell hkey, hread]
  exact if_neg (fun h => h rfl)

/-- **THE LOOP OVER THE CELLS** reads back the list it was written from. -/
theorem readCells_flatMap {α : Type} {cell : Bytes → Except Error (α × Bytes)} {bs : α → Bytes}
    {l : List α} (h : ∀ a ∈ l, ∀ rest, cell (bs a ++ rest) = .ok (a, rest)) (rest : Bytes) :
    readCells cell l.length (l.flatMap bs ++ rest) = .ok l := by
  induction l with
  | nil => rfl
  | cons a l ih =>
      have htail := ih fun a' ha' => h a' (mem_cons_of_mem a ha')
      rw [length_cons, readCells, flatMap_cons, append_assoc,
        h a (.head _)]
      dsimp only
      rw [htail]
      rfl

/-! ## Pages -/

section Page

variable {n : Node} {buf : Bytes}

theorem pageType_pieces {A rest : Bytes} (hA : A.length = 4) :
    pageType (A ++ (marks n ++ rest)) = .ok (PageKind.ofNode n) := by
  have hbyte : (A ++ (marks n ++ rest)).getD 4 0 = PageKind.byte (PageKind.ofNode n) := by
    simp [marks, getD_eq_getElem?_getD, hA]
  rw [pageType, hbyte]
  cases n <;> rfl

/-- **DECODING A FRAME** gives the node it was made of. -/
theorem decode_frame (hhead : PAGE_HEADER_LEN ≤ buf.length) (hlen : buf.length ≤ 2 ^ 16)
    (hfits : n.encodedSize ≤ buf.length) (horder : n.inOrder = true) (h64 : nodeInU64 n)
    (id : PageId) : decode (frame n buf) id = .ok n := by
  obtain ⟨A, T, L, R, rfl, hA, hT, hL⟩ := exists_header hhead
  have hsize := hfits.trans hlen
  rw [frame_append hA hT hL]
  -- nothing reads past the cells
  generalize List.replicate (16 + R.length - n.encodedSize) (0 : UInt8) = Z
  have hkind : pageType (A ++ (marks n ++ (L ++ (body n ++ Z)))) = .ok (PageKind.ofNode n) :=
    pageType_pieces hA
  have hcount : count (A ++ (marks n ++ (L ++ (body n ++ Z)))) = entryCount n :=
    count_pieces hA (entryCount_lt hsize)
  have hbody : (A ++ (marks n ++ (L ++ (body n ++ Z)))).drop PAGE_HEADER_LEN = body n ++ Z := by
    rw [← append_assoc, ← append_assoc]
    refine drop_left' ?_
    simp only [length_append, length_marks, hA, hL, PAGE_HEADER_LEN]
  cases n with
  | leaf es =>
      refine decode_leaf_iff.mpr ⟨hkind, ?_, horder⟩
      rw [hcount, hbody]
      refine readCells_flatMap (fun e he rest => ?_) _
      have hcell : leafCellSize e.1 e.2 ≤ leafCells es :=
        le_sum_of_mem (mem_map_of_mem he)
      rw [Node.encodedSize] at hsize
      exact readLeafCell_leafCell id (by omega) (h64 e he) rest
  | branch f es =>
      have hfirst : readU64 (body (.branch f es) ++ Z)
          = some (f, es.flatMap (fun e => branchCell e.1 e.2) ++ Z) := by
        rw [body, Page.body, append_assoc]
        exact readLe_le h64.1 _
      refine decode_branch_iff.mpr ⟨hkind, _, hbody ▸ hfirst, ?_, horder⟩
      rw [hcount]
      refine readCells_flatMap (fun e he rest => ?_) Z
      have hcell : branchCellSize e.1 ≤ branchCells es :=
        le_sum_of_mem (mem_map_of_mem he)
      rw [Node.encodedSize] at hsize
      exact readBranchCell_branchCell id (by omega) (h64.2 e he) rest

/-- What a frame does not use is zero. -/
theorem drop_encodedSize_frame (hhead : PAGE_HEADER_LEN ≤ buf.length) :
    (frame n buf).drop n.encodedSize = List.replicate (buf.length - n.encodedSize) 0 := by
  rw [← length_body n, ← drop_drop, drop_frame hhead, drop_left, length_body]

end Page

/-- **NODES SURVIVE THEIR PAGES**.  A node whose keys go up and that fits a
    page encodes into it, in exactly the bytes its size says; the rest of the
    page is zero, decoding returns the node, and no other node encodes to the
    same page. -/
theorem node_codec_round_trip (n : Node) (buf : Bytes) (hlen : validPageSize buf.length = true)
    (horder : n.inOrder = true) (h64 : nodeInU64 n) (hfits : n.encodedSize ≤ buf.length) :
    ∃ page, encodeNode n buf = .ok (page, n.encodedSize) ∧ page.length = buf.length
      ∧ page.drop n.encodedSize = List.replicate (buf.length - n.encodedSize) 0
      ∧ (∀ id, decode page id = .ok n)
      ∧ ∀ n' buf' used, validPageSize buf'.length = true → n'.inOrder = true → nodeInU64 n' →
        encodeNode n' buf' = .ok (page, used) → n' = n := by
  have hhead := header_le hlen
  have hsmall : buf.length ≤ 2 ^ 16 := (le_of_validPageSize hlen).2
  have hdecode := decode_frame hhead hsmall hfits horder h64
  refine ⟨frame n buf, (encodeNode_eq_ok hhead hsmall).mpr ⟨hfits, rfl⟩, length_frame hhead hfits,
    drop_encodedSize_frame hhead, hdecode, ?_⟩
  intro n' buf' used hlen' horder' h64' henc
  have hsmall' : buf'.length ≤ 2 ^ 16 := (le_of_validPageSize hlen').2
  obtain ⟨hfits', hpage⟩ := (encodeNode_eq_ok (header_le hlen') hsmall').mp henc
  have hsame : frame n buf = frame n' buf' := (Prod.mk.inj hpage).1
  have hback := decode_frame (header_le hlen') hsmall' hfits' horder' h64' 0
  rw [← hsame, hdecode 0] at hback
  exact (Except.ok.inj hback).symm

/-- A leaf with a value in place and one in a chain, into a page that was full. -/
theorem node_codec_round_trip_twoCells :
    ∃ page, encodeNode (.leaf [([97], .inline [49]), ([98], .overflow 7 5000)])
        (List.replicate 512 255) = .ok (page, 45)
      ∧ page.drop 45 = List.replicate 467 0
      ∧ decode page 3 = .ok (.leaf [([97], .inline [49]), ([98], .overflow 7 5000)]) := by
  have h64 : nodeInU64 (.leaf [([97], .inline [49]), ([98], .overflow 7 5000)]) := by
    simp [nodeInU64, valueInU64]
  obtain ⟨page, henc, -, hzero, hdecode, -⟩ := node_codec_round_trip
    (.leaf [([97], .inline [49]), ([98], .overflow 7 5000)]) (List.replicate 512 255)
    (by rw [length_replicate]; decide) (by decide) h64
    (by rw [length_replicate]; decide)
  rw [length_replicate] at hzero
  exact ⟨page, henc, hzero, hdecode 3⟩

end QuantyBytes
