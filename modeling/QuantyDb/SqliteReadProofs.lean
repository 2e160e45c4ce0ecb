import QuantyDb.SqliteModel

/-! # Reading a SQLite file never faults

    Bounds are established far from where they are used: the usable size in
    the header, cell pointers in the page parser, the part of a payload that
    stays on a page by a formula with divisions.  Each function here has one
    lemma that says what it returns and that it does not fault, and callers
    use that lemma alone. -/

namespace QuantySqlite

open QuantyPage BigEndian Outcome List

/-- A call that returns, with what holds of its value. -/
abbrev Gives {α : Type} (x : Result α) (Q : α → Prop) : Prop := Returns Error.Fault x Q

/-- A call that returns. -/
abbrev Safe {α : Type} (x : Result α) : Prop := Gives x fun _ => True

/-- A source that never faults, on reads a 64 bit offset can address. -/
structure Source.Sound (s : Source) : Prop where
  len : Safe s.len
  readAt : ∀ offset count, offset + count < 2 ^ 64 → Safe (s.readAt offset count)

theorem Safe.of {α : Type} {x : Result α} {Q : α → Prop} (h : Gives x Q) : Safe x :=
  h.imp fun _ _ => trivial

variable {a b number off start : Nat} {c : Prop}

section Slices

variable {bytes : Bytes}

theorem gives_index (h : off < bytes.length) : Safe (index bytes off) := by
  rw [index, getElem?_eq_getElem h]
  exact of_ok trivial

/-- A slice within the bytes. -/
theorem gives_between {stop : Nat} (h : start ≤ stop) (hstop : stop ≤ bytes.length) :
    Gives (between bytes start stop) (fun r => r.length = stop - start) := by
  rw [between, if_pos ⟨h, hstop⟩]
  refine of_ok ?_
  rw [length_take, length_drop]
  omega

/-- The rest of the bytes, from a position within them. -/
theorem gives_since (h : start ≤ bytes.length) :
    Gives (since bytes start) (fun r => r.length = bytes.length - start) := by
  rw [since, if_pos h]
  exact of_ok (length_drop ..)

/-- A subtraction that stays above zero. -/
theorem gives_minus (h : b ≤ a) : Gives (minus a b) (fun r => r = a - b) := by
  rw [minus, if_pos h]
  exact of_ok rfl

/-- A sum within 64 bits. -/
theorem gives_plus (h : a + b < 2 ^ 64) : Gives (plus a b) (fun r => r = a + b) := by
  rw [plus, if_pos h]
  exact of_ok rfl

/-- The same, with what is done with the sum. -/
theorem of_plus {β : Type} {f : Nat → Result β} {Q : β → Prop} (h : a + b < 2 ^ 64)
    (hf : Gives (f (a + b)) Q) : Gives (plus a b >>= f) Q :=
  (gives_plus h).bind fun _ hr => hr ▸ hf

theorem gives_times (h : a * b < 2 ^ 64) : Gives (times a b) (fun r => r = a * b) := by
  rw [times, if_pos h]
  exact of_ok rfl

/-- A remainder, of a division by something. -/
theorem gives_remainder (h : 0 < b) : Gives (remainder a b) (fun r => r = a % b) := by
  rw [remainder, if_neg h.ne']
  exact of_ok rfl

/-- Two bytes that are there. -/
theorem gives_be16 (h : off + 1 < bytes.length) : Safe (be16 bytes off) := by
  refine (gives_index (by omega)).bind fun _ _ => ?_
  refine (gives_index h).bind fun _ _ => ?_
  exact of_pure trivial

theorem gives_be32 (h : off + 3 < bytes.length) : Safe (be32 bytes off) := by
  refine (gives_index (by omega)).bind fun _ _ => ?_
  refine (gives_index (by omega)).bind fun _ _ => ?_
  refine (gives_index (by omega)).bind fun _ _ => ?_
  refine (gives_index h).bind fun _ _ => ?_
  exact of_pure trivial

end Slices

/-- A refusal is an answer. -/
theorem gives_refuse_notSqlite [Decidable c] (reason : String) :
    Gives (refuse c (Error.notSqlite reason)) (fun _ => ¬ c) := of_refuse id

theorem gives_refuse_unsupported [Decidable c] (reason : String) :
    Gives (refuse c (Error.unsupported reason)) (fun _ => ¬ c) := of_refuse id

/-- Past a refusal its condition is false. -/
theorem gives_refuse [Decidable c] (page : Option Nat) (reason : String) :
    Gives (refuse c (Error.malformed page reason)) (fun _ => ¬ c) := of_refuse id

/-! ## Opening -/

theorem safe_textEncodingOf (n : Nat) : Safe (textEncodingOf n) := by
  rw [textEncodingOf.eq_def]
  split
  · exact of_ok trivial
  · exact of_ok trivial
  · exact of_ok trivial
  · exact of_error id

/-- **ANY HEADER** parses or is refused. -/
theorem safe_parseHeader (bytes : Bytes) : Safe (Header.parse bytes) := by
  refine (gives_refuse_notSqlite _).bind fun _ hlen => ?_
  rw [HEADER_LEN, not_lt] at hlen
  refine (gives_between (Nat.zero_le _) (by omega)).bind fun _ _ => ?_
  refine (gives_refuse_notSqlite _).bind fun _ _ => ?_
  refine (gives_be16 (by omega)).bind fun _ _ => ?_
  refine (gives_refuse _ _).bind fun _ _ => ?_
  refine (gives_index (by omega)).bind fun _ _ => ?_
  refine (gives_index (by omega)).bind fun _ _ => ?_
  refine (gives_refuse_unsupported _).bind fun _ _ => ?_
  refine (gives_index (by omega)).bind fun _ _ => ?_
  refine (gives_refuse _ _).bind fun _ _ => ?_
  refine (gives_index (by omega)).bind fun _ _ => ?_
  refine (gives_index (by omega)).bind fun _ _ => ?_
  refine (gives_index (by omega)).bind fun _ _ => ?_
  refine (gives_refuse _ _).bind fun _ _ => ?_
  refine (gives_be32 (by omega)).bind fun _ _ => ?_
  refine (gives_be32 (by omega)).bind fun _ _ => ?_
  refine (gives_be32 (by omega)).bind fun _ _ => ?_
  refine (gives_be32 (by omega)).bind fun _ _ => ?_
  refine (gives_refuse _ _).bind fun _ _ => ?_
  refine (gives_be32 (by omega)).bind fun _ _ => ?_
  refine (safe_textEncodingOf _).bind fun _ _ => ?_
  refine (gives_between (by omega) (by omega)).bind fun _ _ => ?_
  refine (gives_refuse _ _).bind fun _ _ => ?_
  exact of_pure trivial

/-- Pages are counted from the header or from the length of the file. -/
theorem safe_countPages (header : Header) (fileLen : Nat) : Safe (countPages header fileLen) := by
  unfold countPages
  dsimp only
  split
  · split
    · exact of_error id
    · exact of_ok trivial
  · exact of_ok trivial

/-- **OPENING** any source that is sound, whatever is in it. -/
theorem gives_open {source : Source} (h : source.Sound) :
    Gives (Reader.open source) (fun r => r.source = source) := by
  refine h.len.bind fun _ _ => ?_
  refine (gives_refuse_notSqlite _).bind fun _ _ => ?_
  refine (h.readAt 0 HEADER_LEN (by decide)).bind fun _ _ => ?_
  refine (safe_parseHeader _).bind fun _ _ => ?_
  refine (gives_refuse_unsupported _).bind fun _ _ => ?_
  refine (safe_countPages _ _).bind fun _ _ => ?_
  refine (gives_refuse _ _).bind fun _ _ => ?_
  exact of_pure rfl

/-- A file in memory keeps to its own length. -/
theorem sound_sliceSource (bytes : Bytes) : (sliceSource bytes).Sound where
  len := of_ok trivial
  readAt offset count _ := by
    unfold sliceSource
    dsimp only
    split
    · exact of_error id
    · split
      · exact of_error id
      · exact of_ok trivial

/-! ## Pages -/

section Pages

variable {r : Reader} (hr : r.source.Sound)

include hr in
/-- A page number out of range is refused before the file is asked. -/
theorem safe_readPage (number : Nat) : Safe (r.readPage number) := by
  have hsmall := r.header.small
  have hpages := r.pages
  refine (gives_refuse _ _).bind fun _ hrange => ?_
  rw [not_or, not_lt] at hrange
  have hbound : (number - 1) * r.header.pageSize ≤ 2 ^ 32 * 65536 :=
    Nat.mul_le_mul (by omega) hsmall
  refine (gives_minus (by omega)).bind ?_
  rintro _ rfl
  refine (gives_times (by omega)).bind ?_
  rintro _ rfl
  exact hr.readAt _ _ (by omega)

/-- The pointers of a page are within it. -/
theorem gives_readPointers {usable pointersEnd : Nat} {bytes : Bytes} (left i : Nat)
    (h : start + (i + left) * 2 ≤ bytes.length) :
    Gives (readPointers number bytes usable start pointersEnd left i)
      (fun l => l.val.length = left) := by
  induction left generalizing i with
  | zero => exact of_ok rfl
  | succ left ih =>
      refine (gives_be16 (by omega)).bind fun _ _ => ?_
      refine (gives_refuse _ _).bind fun _ _ => ?_
      refine (ih (i + 1) (by omega)).bind fun _ hlen => ?_
      exact of_pure (congrArg (· + 1) hlen)

/-- The pointer behind the last cell is in the header of the page. -/
theorem safe_readRightMost {bodyOffset : Nat} {bytes : Bytes} {kind : PageKind}
    (h : bodyOffset + kind.headerLen ≤ bytes.length) :
    Safe (readRightMost number bytes bodyOffset kind) := by
  rw [readRightMost]
  split
  · next hin =>
    rw [PageKind.headerLen, if_pos hin] at h
    refine (gives_be32 (by omega)).bind fun _ _ => ?_
    refine (gives_refuse _ _).bind fun _ _ => ?_
    exact of_pure trivial
  · exact of_ok trivial

/-- **ANY PAGE** parses or is refused, and keeps its number. -/
theorem gives_parsePage (number : Nat) (bytes : Bytes) (usable bodyOffset : Nat)
    (fits : usable ≤ bytes.length) :
    Gives (BtreePage.parse number bytes usable bodyOffset fits)
      (fun p => p.number = number ∧ p.usable = usable ∧ p.cellCount < 2 ^ 16) := by
  refine (gives_refuse _ _).bind fun _ hhead => ?_
  refine (gives_index (by omega)).bind fun _ _ => ?_
  split
  · exact of_throw id
  · next kind _ =>
    refine (gives_refuse _ _).bind fun _ hheader => ?_
    have hlen : 8 ≤ kind.headerLen := by
      rw [PageKind.headerLen]
      split <;> omega
    refine (gives_be16 (by omega)).bind fun count _ => ?_
    refine (gives_refuse _ _).bind fun _ hend => ?_
    refine (gives_be16 (by omega)).bind fun _ _ => ?_
    refine (gives_refuse _ _).bind fun _ _ => ?_
    refine (gives_refuse _ _).bind fun _ _ => ?_
    refine (gives_readPointers _ _ (by omega)).bind fun _ hcount => ?_
    refine (safe_readRightMost (by omega)).bind fun _ _ => ?_
    exact of_pure ⟨rfl, rfl, hcount.trans_lt count.property⟩

include hr in
/-- **A PAGE** of any content is read or refused. -/
theorem gives_btreePage (number : Nat) :
    Gives (r.btreePage number)
      (fun p => p.number = number ∧ p.usable = r.usableSize ∧ p.cellCount < 2 ^ 16) :=
  (safe_readPage hr number).bind fun _ _ => gives_parsePage _ _ _ _ _

/-- A page that is read is one of the file's. -/
theorem btreePage_ok {page : BtreePage} (h : r.btreePage number = .ok page) :
    page.number = number ∧ page.cellCount < 2 ^ 16 ∧ number ≤ r.pageCount := by
  obtain ⟨bytes, hread, hparse⟩ := bind_eq_ok.mp h
  obtain ⟨hnumber, -, hcount⟩ := (gives_parsePage _ _ _ _ _).ok hparse
  obtain ⟨hrange, -, -⟩ := bind_eq_ok.mp hread
  refine ⟨hnumber, hcount, ?_⟩
  have := hrange.down
  omega

/-- **A CELL** is what stands from its pointer on, within the page. -/
theorem gives_pageCell (p : BtreePage) (i : Nat) :
    Gives (p.cell i) (fun bytes => bytes.length ≤ p.usable) := by
  rw [BtreePage.cell]
  split
  · exact of_error id
  · next start hstart =>
    have hlt := p.pointers start (mem_of_getElem? hstart)
    refine (gives_between hlt.le p.fits).imp ?_
    intro bytes hlen
    omega

end Pages

/-! ## Variable length integers -/

/-- What the loop over the first bytes takes, and how large it can be. -/
theorem varintLoop_spec (bytes : Bytes) (taken value : Nat) (hvalue : value < 128 ^ taken) :
    (varintLoop bytes taken value).1 < 128 ^ (taken + bytes.length) ∧
    ∀ n, (varintLoop bytes taken value).2 = some n → taken < n ∧ n ≤ taken + bytes.length := by
  induction bytes generalizing taken value with
  | nil => exact ⟨hvalue, fun n h => nomatch h⟩
  | cons b rest ih =>
      have hnext : value * 128 + b.toNat % 128 < 128 ^ (taken + 1) := by
        have := Nat.mod_lt b.toNat (show 0 < 128 by decide)
        rw [pow_succ]
        omega
      rw [varintLoop, length_cons]
      split
      · refine ⟨lt_of_lt_of_le hnext (Nat.pow_le_pow_right (by decide) (by omega)), ?_⟩
        intro n hn
        obtain rfl := Option.some.inj hn
        omega
      · obtain ⟨hlt, htaken⟩ := ih (taken + 1) _ hnext
        refine ⟨by rwa [Nat.add_right_comm, Nat.add_assoc] at hlt, ?_⟩
        intro n hn
        have := htaken n hn
        omega

/-- **A VARINT** stays in its bytes. -/
theorem gives_readVarint (bytes : Bytes) :
    Gives (readVarint bytes) (fun v => 1 ≤ v.2 ∧ v.2 ≤ bytes.length ∧ v.1 < 2 ^ 63) := by
  obtain ⟨hlt, htaken⟩ := varintLoop_spec (bytes.take 8) 0 0 (by decide)
  have hlen : (bytes.take 8).length ≤ 8 := length_take_le ..
  have hle : (bytes.take 8).length ≤ bytes.length := length_take_le' ..
  have hval : (varintLoop (bytes.take 8) 0 0).1 < 128 ^ 8 :=
    lt_of_lt_of_le hlt (Nat.pow_le_pow_right (by decide) (by omega))
  have hsmall : ∀ n : Nat, n < 2 ^ 64 → asI64 n < 2 ^ 63 := by
    intro n hn
    rw [asI64]
    split <;> omega
  rw [readVarint]
  split
  · next value taken heq =>
    rw [heq] at htaken hval
    have := htaken taken rfl
    exact of_ok ⟨by omega, by omega, hsmall _ (by omega)⟩
  · next value heq =>
    rw [heq] at hval
    split
    -- the ninth byte gives all of its eight bits
    · next b hb =>
      have hb8 : 8 < bytes.length := (List.getElem?_eq_some_iff.mp hb).1
      have hbyte := b.toNat_lt
      exact of_ok ⟨by omega, by omega, hsmall _ (by dsimp only at hval; omega)⟩
    · exact of_error id

/-- A length: a varint that is not negative. -/
theorem gives_readUnsigned (bytes : Bytes) :
    Gives (readUnsigned bytes) (fun v => 1 ≤ v.2 ∧ v.2 ≤ bytes.length ∧ v.1 < 2 ^ 63) := by
  refine (gives_readVarint bytes).bind ?_
  rintro ⟨value, taken⟩ ⟨hpos, hle, hlt⟩
  refine (gives_refuse _ _).bind fun _ hneg => ?_
  refine of_pure ⟨hpos, hle, ?_⟩
  dsimp only at hlt hneg ⊢
  omega

/-! ## Cells -/

section Cells

variable {usable : Nat} (hu : 480 ≤ usable) (hsmall : usable ≤ 65536)

include hu in
/-- What a page keeps of a payload, at the most. -/
theorem gives_maxLocal (kind : PageKind) :
    Gives (maxLocal kind usable) (fun most => (usable - 12) * 32 / 255 - 23 ≤ most) := by
  rw [maxLocal]
  split
  · refine (gives_minus (by omega)).imp ?_
    rintro _ rfl
    omega
  · refine (gives_minus (by omega)).bind ?_
    rintro _ rfl
    refine (gives_minus (by omega)).imp ?_
    rintro _ rfl
    omega

include hu in
/-- **WHAT STAYS ON A PAGE** is part of the payload. -/
theorem gives_localLen (kind : PageKind) (total : Nat) :
    Gives (localLen kind usable total) (fun kept => kept ≤ total) := by
  refine (gives_maxLocal hu kind).bind fun most hmost => ?_
  split
  · exact of_pure le_rfl
  · next htotal =>
    have hless : (usable - 12) * 32 / 255 - 23 ≤ total := by omega
    refine (gives_minus (by omega)).bind ?_
    rintro _ rfl
    refine (gives_minus (by omega)).bind ?_
    rintro _ rfl
    refine (gives_minus hless).bind ?_
    rintro _ rfl
    refine (gives_minus (by omega)).bind ?_
    rintro _ rfl
    refine (gives_remainder (by omega)).bind ?_
    rintro _ rfl
    refine of_pure ?_
    have hmod := Nat.mod_le (total - ((usable - 12) * 32 / 255 - 23)) (usable - 4)
    split <;> omega

/-- The number of the first overflow page, when its four bytes are there. -/
theorem safe_readOverflow (number : Nat) (rest : Bytes) : Safe (readOverflow number rest) := by
  refine (gives_refuse _ _).bind fun _ hlen => ?_
  refine (gives_be32 (by omega)).bind fun _ _ => ?_
  refine (gives_refuse _ _).bind fun _ _ => ?_
  exact of_pure trivial

/-- A payload kept in whole has no overflow page. -/
theorem safe_overflowOf (number : Nat) {afterHeader : Bytes} {kept : Nat}
    (h : kept ≤ afterHeader.length) (total : Nat) :
    Safe (overflowOf number afterHeader kept total) := by
  refine of_ite (fun _ => ?_) fun _ => of_ok trivial
  refine (gives_since h).bind fun _ _ => ?_
  exact (safe_readOverflow number _).bind fun _ _ => of_pure trivial

/-- What a payload on a page looks like: it is whole, or goes on elsewhere. -/
def PayloadRef.Ok (limit : Nat) (p : PayloadRef) : Prop :=
  p.total ≤ limit ∧ p.inPage.length ≤ p.total

include hu in
/-- **A PAYLOAD** is within its limit, and what is kept of it is in the cell. -/
theorem gives_payloadRef (number : Nat) (kind : PageKind) (afterHeader : Bytes)
    (total limit : Nat) :
    Gives (payloadRef number kind afterHeader total usable limit) (PayloadRef.Ok limit) := by
  refine (gives_refuse _ _).bind fun _ hlimit => ?_
  refine (gives_localLen hu kind total).bind fun kept hkept => ?_
  refine (gives_refuse _ _).bind fun _ hroom => ?_
  refine (safe_overflowOf number (not_lt.mp hroom) total).bind fun _ _ => ?_
  refine (gives_between (Nat.zero_le _) (not_lt.mp hroom)).bind fun inPage hin => ?_
  exact of_pure ⟨not_lt.mp hlimit, by dsimp only; omega⟩

/-- The child of an interior cell is its first four bytes. -/
theorem safe_readChild (number i : Nat) (bytes : Bytes) :
    Gives (readChild number i bytes) (fun _ => 4 ≤ bytes.length) := by
  refine (gives_refuse _ _).bind fun _ hlen => ?_
  refine (gives_be32 (by omega)).bind fun _ _ => ?_
  refine (gives_refuse _ _).bind fun _ _ => ?_
  exact of_pure (not_lt.mp hlen)

/-- The payload of a layout, if it has one. -/
def CellLayout.payload : CellLayout → Option PayloadRef
  | .tableInterior _ _ => none
  | .tableLeaf _ p => some p
  | .indexInterior _ p => some p
  | .indexLeaf p => some p

include hu in
/-- **ANY CELL** of a page parses or is refused. -/
theorem gives_parseCell (page : BtreePage) (i limit : Nat) :
    Gives (parseCell page i usable limit)
      (fun layout => ∀ p ∈ layout.payload, PayloadRef.Ok limit p) := by
  refine (gives_pageCell page i).bind fun bytes hbytes => ?_
  split
  · refine (safe_readChild _ _ _).bind fun _ hfour => ?_
    refine (gives_since hfour).bind fun _ _ => ?_
    refine (gives_readVarint _).bind ?_
    rintro ⟨rowid, taken⟩ -
    exact of_pure fun p hp => nomatch hp
  · refine (gives_readUnsigned _).bind ?_
    rintro ⟨total, sizeLen⟩ ⟨-, hsize, -⟩
    refine (gives_since hsize).bind fun rest hrest => ?_
    refine (gives_readVarint _).bind ?_
    rintro ⟨rowid, rowidLen⟩ ⟨-, hrowid, -⟩
    dsimp only at hsize hrowid ⊢
    refine (gives_since (by omega)).bind fun _ _ => ?_
    refine (gives_payloadRef hu _ _ _ _ _).bind fun ref href => ?_
    refine of_pure ?_
    rintro p ⟨⟩
    exact href
  · refine (safe_readChild _ _ _).bind fun _ hfour => ?_
    refine (gives_since hfour).bind fun rest hrest => ?_
    refine (gives_readUnsigned _).bind ?_
    rintro ⟨total, sizeLen⟩ ⟨-, hsize, -⟩
    dsimp only at hsize ⊢
    refine (gives_since (by omega)).bind fun _ _ => ?_
    refine (gives_payloadRef hu _ _ _ _ _).bind fun ref href => ?_
    refine of_pure ?_
    rintro p ⟨⟩
    exact href
  · refine (gives_readUnsigned _).bind ?_
    rintro ⟨total, sizeLen⟩ ⟨-, hsize, -⟩
    refine (gives_since hsize).bind fun _ _ => ?_
    refine (gives_payloadRef hu _ _ _ _ _).bind fun ref href => ?_
    refine of_pure ?_
    rintro p ⟨⟩
    exact href

end Cells

/-! ## Overflow chains -/

/-- What a page leaves to its cells is at least 480 bytes. -/
theorem Reader.usableSize_ge (r : Reader) : 480 ≤ r.usableSize := by
  have := r.header.usable
  rw [Reader.usableSize, Header.usableSize]
  omega

section Payloads

variable {r : Reader} (hr : r.source.Sound)

include hr in
/-- **THE CHAIN ENDS**: every page adds to the payload, and not more than is
    missing. -/
theorem gives_assembleLoop {total perPage : Nat} (hper : 0 < perPage)
    (hfits : perPage + 4 ≤ r.header.pageSize) (fuel : Nat) {out : Bytes} (next : Nat)
    (hfuel : total ≤ out.length + fuel) (hout : out.length ≤ total) :
    Gives (r.assembleLoop total perPage fuel out next) (fun x => x.1.length ≤ total) := by
  induction fuel generalizing out next with
  | zero =>
      rw [Reader.assembleLoop, if_neg (by omega)]
      exact of_ok hout
  | succ fuel ih =>
      rw [Reader.assembleLoop]
      split
      · next hless =>
        refine (gives_refuse _ _).bind fun _ _ => ?_
        refine (safe_readPage hr next).bind fun page _ => ?_
        have hpage := page.property
        refine (gives_be32 (by omega)).bind fun _ _ => ?_
        refine (gives_minus hless.le).bind ?_
        rintro _ rfl
        -- a page adds what it has room for, or what is still missing
        refine (gives_between (by omega) (by omega)).bind fun part hpart => ?_
        refine ih _ ?_ ?_
        · rw [length_append, hpart]
          omega
        · rw [length_append, hpart]
          omega
      · exact of_ok hout

include hr in
/-- **AN ASSEMBLED PAYLOAD** stays within the limit. -/
theorem gives_assemble {payload : PayloadRef} {limit : Nat} (h : payload.Ok limit) :
    Gives (r.assemble payload) (fun bytes => bytes.length ≤ limit) := by
  obtain ⟨htotal, hpage⟩ := h
  have husable := r.usableSize_ge
  have hsize : r.usableSize ≤ r.header.pageSize := r.header.usableSize_le
  rw [Reader.assemble]
  split
  · exact of_ok (hpage.trans htotal)
  · refine (gives_minus (by omega)).bind ?_
    rintro _ rfl
    refine (gives_assembleLoop hr (by omega) (by omega) _ _ (Nat.le_add_left _ _) hpage).bind ?_
    rintro ⟨out, next⟩ hout
    refine (gives_refuse _ _).bind fun _ _ => ?_
    exact of_pure (hout.trans htotal)

/-- The payload of a cell, if it has one. -/
def Cell.payload : Cell → Option Bytes
  | .tableInterior _ _ => none
  | .tableLeaf _ p => some p
  | .indexInterior _ p => some p
  | .indexLeaf p => some p

include hr in
/-- **ANY CELL** is read or refused, and is not larger than the file. -/
theorem gives_cell (page : BtreePage) (i : Nat) :
    Gives (r.cell page i) (fun cell => ∀ p ∈ cell.payload, p.length ≤ r.payloadLimit) := by
  refine (gives_parseCell r.usableSize_ge page i _).bind fun layout hlayout => ?_
  split
  · exact of_pure nofun
  · exact (gives_assemble hr (hlayout _ rfl)).bind fun bytes hbytes =>
      of_pure fun p hp => Option.some.inj hp ▸ hbytes
  · exact (gives_assemble hr (hlayout _ rfl)).bind fun bytes hbytes =>
      of_pure fun p hp => Option.some.inj hp ▸ hbytes
  · exact (gives_assemble hr (hlayout _ rfl)).bind fun bytes hbytes =>
      of_pure fun p hp => Option.some.inj hp ▸ hbytes

include hr in
theorem safe_cell (page : BtreePage) (i : Nat) : Safe (r.cell page i) := .of (gives_cell hr page i)

end Payloads

/-! ## Records -/

/-- An integer takes some bytes. -/
def SerialType.Sized (type : SerialType) : Prop := ∀ width, type = .int width → 0 < width

/-- The two reserved codes are refused, so every type has a size. -/
theorem gives_fromCode (code : Nat) : Gives (SerialType.fromCode code) SerialType.Sized := by
  unfold SerialType.fromCode
  refine of_ite (fun _ => of_ok nofun) fun hpos => ?_
  refine of_ite (fun hsmall => of_ok ?_) fun _ => ?_
  · rintro _ ⟨⟩
    have hwidths : ∀ i < 6, 0 < SerialType.INT_WIDTHS.getD i 0 := by decide
    exact hwidths _ (by omega)
  refine of_ite (fun _ => of_ok nofun) fun _ => ?_
  refine of_ite (fun _ => of_ok nofun) fun _ => ?_
  refine of_ite (fun _ => of_ok nofun) fun _ => ?_
  refine of_ite (fun _ => of_error id) fun hlarge => ?_
  refine of_ite (fun _ => ?_) fun hodd => ?_
  · exact (gives_minus (by omega)).bind fun _ _ => of_pure nofun
  · exact (gives_minus (by omega)).bind fun _ _ => of_pure nofun

/-- How many bytes a text takes. -/
def textSize (cs : List Char) : Nat := (cs.map Char.utf8Size).sum

theorem textSize_cons (c : Char) (cs : List Char) :
    textSize (c :: cs) = c.utf8Size + textSize cs := by
  rw [textSize, map_cons, sum_cons]
  rfl

/-- The size of a text is that of its characters. -/
theorem utf8ByteSize_eq (s : String) : s.utf8ByteSize = textSize s.toList := by
  conv_lhs => rw [← String.ofList_toList (s := s)]
  rw [String.utf8ByteSize, String.toByteArray_ofList, List.utf8Encode, size_toByteArray]
  induction s.toList with
  | nil => rfl
  | cons c cs ih =>
      rw [flatMap_cons, length_append, String.length_utf8EncodeChar, textSize_cons, ih]

/-- The texts among values are not larger than a bound. -/
def TextsWithin (bound : Nat) (values : List SqliteValue) : Prop :=
  ∀ s, .text s ∈ values → s.utf8ByteSize ≤ bound

/-- A character is at most four bytes of UTF-8. -/
theorem textSize_le (cs : List Char) : textSize cs ≤ 4 * cs.length := by
  induction cs with
  | nil => exact le_rfl
  | cons c cs ih =>
      have := Char.utf8Size_le_four c
      rw [textSize_cons, length_cons]
      omega

/-- A character takes at least one code unit. -/
theorem length_fromUtf16 {units : List Nat} {cs : List Char} (h : fromUtf16 units = some cs) :
    cs.length ≤ units.length := by
  fun_induction fromUtf16 units generalizing cs with
  | case1 =>
      cases h
      exact le_rfl
  | case2 u rest hu ih =>
      obtain ⟨cs', hcs', rfl⟩ := Option.map_eq_some_iff.mp h
      exact Nat.succ_le_succ (ih hcs')
  | case3 => nomatch h
  | case4 => nomatch h
  | case5 u hu hhigh low rest hlow ih =>
      obtain ⟨cs', hcs', rfl⟩ := Option.map_eq_some_iff.mp h
      have := ih hcs'
      simp only [length_cons]
      omega
  | case6 => nomatch h

/-- A code unit takes two bytes. -/
theorem length_codeUnits (bigEndian : Bool) (bytes : Bytes) :
    2 * (codeUnits bigEndian bytes).length ≤ bytes.length := by
  fun_induction codeUnits bigEndian bytes with
  | case1 a b rest ih =>
      simp only [length_cons]
      omega
  | case2 => exact Nat.zero_le _

/-- **A TEXT** at most doubles on its way out of UTF-16. -/
theorem gives_textFrom (bytes : Bytes) (encoding : TextEncoding) :
    Gives (textFrom bytes encoding) (fun s => s.utf8ByteSize ≤ 2 * bytes.length) := by
  unfold textFrom
  split
  · split
    · next text htext =>
      have hbytes : text.toByteArray = ⟨bytes.toArray⟩ := by
        rw [String.fromUTF8?] at htext
        split at htext
        · cases htext
          rfl
        · nomatch htext
      refine of_ok ?_
      have hsize : text.utf8ByteSize = bytes.length := by
        rw [String.utf8ByteSize, hbytes]
        rfl
      omega
    · exact of_error id
  · refine of_ite (fun _ => of_error id) fun _ => ?_
    split
    · next text htext =>
      refine of_ok ?_
      have hunits := length_codeUnits (encoding = .utf16Be) bytes
      have hchars := length_fromUtf16 htext
      have hsize := textSize_le text
      rw [utf8ByteSize_eq, String.toList_ofList]
      omega
    · exact of_error id

/-- **THE HEADER OF A RECORD** is read to its end. -/
theorem gives_readTypes {payload : Bytes} {headerLen : Nat} (hlen : headerLen ≤ payload.length)
    (fuel off : Nat) (hfuel : headerLen ≤ off + fuel) :
    Gives (readTypes payload headerLen fuel off) (fun types => ∀ type ∈ types, type.Sized) := by
  induction fuel generalizing off with
  | zero =>
      rw [readTypes, if_neg (by omega)]
      exact of_ok nofun
  | succ fuel ih =>
      rw [readTypes]
      split
      · next hless =>
        refine (gives_between hless.le hlen).bind fun rest hrest => ?_
        refine (gives_readUnsigned rest).bind ?_
        rintro ⟨code, len⟩ ⟨hpos, hle, -⟩
        dsimp only at hpos hle ⊢
        refine (gives_fromCode code).bind fun _ htype => ?_
        refine (ih (off + len) (by omega)).bind fun _ htypes => ?_
        exact of_pure (forall_mem_cons.mpr ⟨htype, htypes⟩)
      · exact of_ok nofun

/-- A number of no bytes would have no sign to look at. -/
theorem safe_signedBe {bytes : Bytes} (h : 0 < bytes.length) : Safe (signedBe bytes) := by
  refine of_ite (fun _ => ?_) fun _ => of_ok trivial
  exact (gives_minus (by omega)).bind fun _ _ => of_pure trivial

theorem safe_eightBytes {bytes : Bytes} (h : bytes.length = 8) : Safe (eightBytes bytes) := by
  rw [eightBytes, if_pos h]
  exact of_ok trivial

/-- **A VALUE** is read from as many bytes as its type takes. -/
theorem gives_valueOf (encoding : TextEncoding) {type : SerialType} (htype : type.Sized)
    {bytes : Bytes} (hlen : bytes.length = type.width) :
    Gives (valueOf encoding type bytes)
      (fun v => ∀ s, v = .text s → s.utf8ByteSize ≤ 2 * bytes.length) := by
  cases type with
  | text len =>
      refine (gives_textFrom bytes encoding).bind fun text htext => ?_
      refine of_pure fun s hs => ?_
      cases hs
      exact htext
  | null => exact of_ok nofun
  | zero => exact of_ok nofun
  | one => exact of_ok nofun
  | int width =>
      have hpos : 0 < bytes.length := hlen ▸ htype width rfl
      exact (safe_signedBe hpos).bind fun _ _ => of_pure nofun
  | float => exact (safe_eightBytes hlen).bind fun _ _ => of_pure nofun
  | blob len => exact of_ok nofun

/-- **THE VALUES** of a record are as long as its bytes allow. -/
theorem gives_readValues (payload : Bytes) (encoding : TextEncoding) {types : List SerialType}
    (htypes : ∀ type ∈ types, type.Sized) (off : Nat) :
    Gives (readValues payload encoding types off) (TextsWithin (2 * payload.length)) := by
  induction types generalizing off with
  | nil => exact of_ok nofun
  | cons type types ih =>
      refine (gives_refuse _ _).bind fun _ _ => ?_
      refine (gives_refuse _ _).bind fun _ hstop => ?_
      refine (gives_between (Nat.le_add_right _ _) (not_lt.mp hstop)).bind fun bytes hbytes => ?_
      have hlen : bytes.length = type.width := hbytes.trans (Nat.add_sub_cancel_left ..)
      refine (gives_valueOf encoding (htypes _ (.head _)) hlen).bind fun value hvalue => ?_
      refine (ih (fun _ h => htypes _ (.tail _ h)) _).bind fun values hvalues => ?_
      refine of_pure fun s hs => ?_
      rcases mem_cons.mp hs with hs | hs
      · have := hvalue s hs.symm
        omega
      · exact hvalues s hs

/-- **THE TEXTS OF A RECORD** are at most twice its size. -/
theorem gives_decodeRecord (payload : Bytes) (encoding : TextEncoding) :
    Gives (decodeRecord payload encoding) (TextsWithin (2 * payload.length)) := by
  refine (gives_readUnsigned payload).bind ?_
  rintro ⟨headerLen, varintLen⟩ -
  refine (gives_refuse _ _).bind fun _ hheader => ?_
  rw [not_or] at hheader
  refine (gives_readTypes (not_lt.mp hheader.2) _ _ (Nat.le_add_left _ _)).bind ?_
  exact fun types htypes => gives_readValues payload encoding htypes headerLen

/-- **ANY RECORD** decodes or is refused. -/
theorem safe_decodeRecord (payload : Bytes) (encoding : TextEncoding) :
    Safe (decodeRecord payload encoding) := .of (gives_decodeRecord payload encoding)

end QuantySqlite
