import QuantyDb.PageModel
import QuantyDb.ShiftRegister

/-! # The checksum on every page

    CRC-32C from sixteen tables, sixteen bytes a round and one at a time at the
    end.  A table of level `k` holds what a byte becomes after `8 * (k + 1)`
    steps of the register (`look_eq`), so four of them on the bytes of a word
    step the whole word (`look_word`), and a round is the bit by bit
    definition on its sixteen bytes (`round_eq`). -/

namespace QuantyCrc

open QuantyPage ShiftRegister List Option

def POLY : BitVec 32 := 0x82f63b78#32

/-! ## The tables -/

/-- One bit of a table entry. -/
def bitStep (crc : BitVec 32) : BitVec 32 :=
  if crc &&& 1#32 = 1#32 then (crc >>> 1) ^^^ POLY else crc >>> 1

/-- `tables[0]`: a byte, shifted through the polynomial. -/
def firstTable : List (BitVec 32) :=
  (List.range 256).map fun index => bitStep^[8] (BitVec.ofNat 32 index)

/-- `table[(x & 0xff) as usize]`. -/
def entry (table : List (BitVec 32)) (x : BitVec 32) : BitVec 32 :=
  table.getD (x &&& 0xff#32).toNat 0#32

/-- Each further table is the one before run through the first once more. -/
def levels : Nat → List (BitVec 32)
  | 0 => firstTable
  | level + 1 =>
      (levels level).map fun previous : BitVec 32 => (previous >>> 8) ^^^ entry firstTable previous

def TABLES : List (List (BitVec 32)) := (List.range 16).map levels

/-- `TABLES[level][(x & 0xff) as usize]`. -/
def look (level : Nat) (x : BitVec 32) : BitVec 32 := entry (TABLES.getD level []) x

/-! ## The checksum -/

/-- `u32::from_le_bytes` of four bytes from an offset on. -/
def word32 (chunk : Bytes) (i : Nat) : BitVec 32 :=
  let byte (k : Nat) : BitVec 8 := (chunk.getD (i + k) 0).toBitVec
  byte 3 ++ byte 2 ++ byte 1 ++ byte 0

/-- Sixteen bytes. -/
def round (crc : BitVec 32) (chunk : Bytes) : BitVec 32 :=
  let a := word32 chunk 0 ^^^ crc
  let b := word32 chunk 4
  let c := word32 chunk 8
  let d := word32 chunk 12
  look 15 a ^^^ look 14 (a >>> 8) ^^^ look 13 (a >>> 16) ^^^ look 12 (a >>> 24)
    ^^^ look 11 b ^^^ look 10 (b >>> 8) ^^^ look 9 (b >>> 16) ^^^ look 8 (b >>> 24)
    ^^^ look 7 c ^^^ look 6 (c >>> 8) ^^^ look 5 (c >>> 16) ^^^ look 4 (c >>> 24)
    ^^^ look 3 d ^^^ look 2 (d >>> 8) ^^^ look 1 (d >>> 16) ^^^ look 0 (d >>> 24)

/-- So many rounds from the front, then byte by byte. -/
def blocks : Nat → BitVec 32 → Bytes → BitVec 32
  | 0, crc, tail => tail.foldl
      (fun crc byte => (crc >>> 8) ^^^ look 0 (crc ^^^ byte.toBitVec.setWidth 32)) crc
  | n + 1, crc, data => blocks n (round crc (data.take 16)) (data.drop 16)

def crc32cAppend (previous : BitVec 32) (data : Bytes) : BitVec 32 :=
  ~~~ blocks (data.length / 16) (~~~ previous) data

def crc32c (data : Bytes) : BitVec 32 := crc32cAppend 0#32 data

/-- The bits of a byte string in the order in which the checksum takes them, of
    each byte the lowest first. -/
def bitsOf (data : Bytes) : List Bool :=
  data.flatMap fun b => (List.range 8).map b.toBitVec.getLsbD

/-- The definition: all ones, a step for every bit, and inverted. -/
def castagnoli (data : Bytes) : BitVec 32 := ~~~ feedAll POLY (BitVec.allOnes 32) (bitsOf data)

/-! ## What the tables hold -/

theorem bitStep_eq (crc : BitVec 32) : bitStep crc = shift POLY crc := by
  have hlow : (crc &&& 1#32 = 1#32) ↔ crc.getLsbD 0 = true := by
    rw [BitVec.and_one_eq_setWidth_ofBool_getLsbD]
    cases crc.getLsbD 0 <;> decide
  simp only [bitStep, shift, hlow]

theorem bitStep_iterate (n : Nat) (crc : BitVec 32) : bitStep^[n] crc = shifts POLY n crc := by
  induction n generalizing crc with
  | zero => rfl
  | succ n ih => rw [Function.iterate_succ_apply, ih, bitStep_eq, shifts]

theorem low_lt (x : BitVec 32) : (x &&& 0xff#32).toNat < 256 := by
  rw [BitVec.toNat_and]
  exact Nat.and_lt_two_pow _ (n := 8) (by decide)

theorem ofNat_low (x : BitVec 32) : BitVec.ofNat 32 (x &&& 0xff#32).toNat = x &&& 0xff#32 := by
  rw [BitVec.ofNat_toNat, BitVec.setWidth_eq]

/-- The low byte of a register, and the rest moved down. -/
theorem shifts_eight (x : BitVec 32) :
    shifts POLY 8 x = (x >>> 8) ^^^ shifts POLY 8 (x &&& 0xff#32) := by
  have hlow : ∀ i, (0xff#32).getLsbD i = decide (i < 8) := fun i => by
    rw [BitVec.getLsbD_ofNat, show (0xff : Nat) = 2 ^ 8 - 1 from rfl, Nat.testBit_two_pow_sub_one]
    by_cases hi : i < 8
    · simp [hi]; omega
    · simp [hi]
  have hsplit : x = (x &&& ~~~ 0xff#32) ^^^ (x &&& 0xff#32) := by
    refine BitVec.eq_of_getLsbD_eq fun i hi => ?_
    simp only [BitVec.getLsbD_xor, BitVec.getLsbD_and, BitVec.getLsbD_not, hlow, hi]
    by_cases h8 : i < 8 <;> simp [h8]
  have hdown : (x &&& ~~~ 0xff#32) >>> 8 = x >>> 8 := by
    refine BitVec.eq_of_getLsbD_eq fun i hi => ?_
    simp only [BitVec.getLsbD_ushiftRight, BitVec.getLsbD_and, BitVec.getLsbD_not, hlow]
    by_cases h : 8 + i < 32
    · simp [h]
    · simp [BitVec.getLsbD_of_ge x (8 + i) (by omega)]
  conv_lhs => rw [hsplit]
  rw [shifts_xor, shifts_of_clear, hdown]
  intro i hi
  simp only [BitVec.getLsbD_and, BitVec.getLsbD_not, hlow, hi]
  simp

theorem entry_firstTable (x : BitVec 32) : entry firstTable x = shifts POLY 8 (x &&& 0xff#32) := by
  rw [entry, firstTable, getD_eq_getElem?_getD, getElem?_map, getElem?_range (low_lt x),
    map_some, getD_some, bitStep_iterate, ofNat_low]

/-- **A TABLE** of a level steps a byte as often as its level says. -/
theorem levels_getElem? (level : Nat) {index : Nat} (h : index < 256) :
    (levels level)[index]? = some (shifts POLY (8 * (level + 1)) (BitVec.ofNat 32 index)) := by
  induction level with
  | zero =>
      rw [levels, firstTable, getElem?_map, getElem?_range h, map_some,
        bitStep_iterate]
  | succ level ih =>
      rw [levels, getElem?_map, ih, map_some, entry_firstTable, ← shifts_eight, ← shifts_add]
      rfl

theorem look_eq {level : Nat} (h : level < 16) (x : BitVec 32) :
    look level x = shifts POLY (8 * (level + 1)) (x &&& 0xff#32) := by
  rw [look, TABLES, getD_eq_getElem?_getD, getElem?_map, getElem?_range h,
    map_some, getD_some, entry, getD_eq_getElem?_getD,
    levels_getElem? level (low_lt x), getD_some, ofNat_low]

/-- A table and the rest of the register below it. -/
theorem look_rest {level : Nat} (h : level < 16) (x : BitVec 32) :
    look level x ^^^ shifts POLY (8 * level) (x >>> 8) = shifts POLY (8 * (level + 1)) x := by
  have hsucc : 8 * (level + 1) = 8 + 8 * level := by omega
  rw [look_eq h, hsucc, shifts_add, shifts_add, ← shifts_xor, BitVec.xor_comm, ← shifts_eight]

/-- **FOUR TABLES** step a word. -/
theorem look_word {level : Nat} (h : level + 3 < 16) (x : BitVec 32) :
    look (level + 3) x ^^^ look (level + 2) (x >>> 8) ^^^ look (level + 1) (x >>> 16)
      ^^^ look level (x >>> 24) = shifts POLY (8 * (level + 4)) x := by
  have hnothing : x >>> 24 >>> 8 = 0#32 := by
    rw [← BitVec.shiftRight_add]
    exact BitVec.ushiftRight_eq_zero (by decide)
  have hlast := look_rest (show level < 16 by omega) (x >>> 24)
  rw [hnothing, shifts_zero, BitVec.xor_zero] at hlast
  rw [← look_rest (show level + 3 < 16 by omega) x,
    ← look_rest (show level + 2 < 16 by omega) (x >>> 8), ← BitVec.shiftRight_add,
    ← look_rest (show level + 1 < 16 by omega) (x >>> 16), ← BitVec.shiftRight_add, ← hlast]
  simp only [BitVec.xor_assoc]

/-! ## The rounds -/

theorem bitsOf_append (a b : Bytes) : bitsOf (a ++ b) = bitsOf a ++ bitsOf b := flatMap_append

theorem length_bitsOf (data : Bytes) : (bitsOf data).length = 8 * data.length := by
  simp [bitsOf, Nat.mul_comm]

/-- A word is its bits. -/
theorem word_bitsOf (b₀ b₁ b₂ b₃ : UInt8) : word (bitsOf [b₀, b₁, b₂, b₃])
    = b₃.toBitVec ++ b₂.toBitVec ++ b₁.toBitVec ++ b₀.toBitVec := by
  refine BitVec.eq_of_getLsbD_eq fun i hi => ?_
  rw [getLsbD_word hi]
  simp only [BitVec.getLsbD_append]
  interval_cases i <;> rfl

/-- Four bytes at once. -/
theorem feedAll_word (crc : BitVec 32) (b₀ b₁ b₂ b₃ : UInt8) :
    feedAll POLY crc (bitsOf [b₀, b₁, b₂, b₃])
      = shifts POLY 32 (crc ^^^ (b₃.toBitVec ++ b₂.toBitVec ++ b₁.toBitVec ++ b₀.toBitVec)) := by
  rw [feedAll_eq POLY (length_bitsOf _).le, word_bitsOf]
  rfl

/-- Four words one after another. -/
theorem shifts_words (x a b c d : BitVec 32) :
    shifts POLY 32 (shifts POLY 32 (shifts POLY 32 (shifts POLY 32 (x ^^^ a) ^^^ b) ^^^ c) ^^^ d)
      = shifts POLY 128 (a ^^^ x)
        ^^^ (shifts POLY 96 b ^^^ (shifts POLY 64 c ^^^ shifts POLY 32 d)) := by
  simp only [shifts_xor, ← shifts_add, Nat.reduceAdd, BitVec.xor_assoc]
  rw [← BitVec.xor_assoc, BitVec.xor_comm (shifts POLY 128 x), BitVec.xor_assoc]

/-- **A ROUND** is the definition on its sixteen bytes. -/
theorem round_eq (crc : BitVec 32) {chunk : Bytes} (h : chunk.length = 16) :
    round crc chunk = feedAll POLY crc (bitsOf chunk) := by
  match chunk, h with
  | [b₀, b₁, b₂, b₃, b₄, b₅, b₆, b₇, b₈, b₉, b₁₀, b₁₁, b₁₂, b₁₃, b₁₄, b₁₅], _ =>
      let w := word32 [b₀, b₁, b₂, b₃, b₄, b₅, b₆, b₇, b₈, b₉, b₁₀, b₁₁, b₁₂, b₁₃, b₁₄, b₁₅]
      have hcut : bitsOf [b₀, b₁, b₂, b₃, b₄, b₅, b₆, b₇, b₈, b₉, b₁₀, b₁₁, b₁₂, b₁₃, b₁₄, b₁₅]
          = bitsOf [b₀, b₁, b₂, b₃] ++ (bitsOf [b₄, b₅, b₆, b₇] ++ (bitsOf [b₈, b₉, b₁₀, b₁₁]
            ++ bitsOf [b₁₂, b₁₃, b₁₄, b₁₅])) := by
        rw [← bitsOf_append, ← bitsOf_append, ← bitsOf_append]
        rfl
      rw [hcut, feedAll_append, feedAll_append, feedAll_append, feedAll_word, feedAll_word,
        feedAll_word, feedAll_word]
      have hround := congrArg₂ (· ^^^ ·) (look_word (show 12 + 3 < 16 by decide) (w 0 ^^^ crc))
        (congrArg₂ (· ^^^ ·) (look_word (show 8 + 3 < 16 by decide) (w 4))
          (congrArg₂ (· ^^^ ·) (look_word (show 4 + 3 < 16 by decide) (w 8))
            (look_word (show 0 + 3 < 16 by decide) (w 12))))
      simp only [BitVec.xor_assoc] at hround
      simp only [round, BitVec.xor_assoc]
      exact hround.trans (shifts_words ..).symm

theorem byte_eq (crc : BitVec 32) (byte : UInt8) :
    (crc >>> 8) ^^^ look 0 (crc ^^^ byte.toBitVec.setWidth 32)
      = feedAll POLY crc (bitsOf [byte]) := by
  have hword : (word (bitsOf [byte]) : BitVec 32) = byte.toBitVec.setWidth 32 := by
    refine BitVec.eq_of_getLsbD_eq fun i hi => ?_
    rw [getLsbD_word hi]
    interval_cases i <;> simp [bitsOf, range_succ]
  have hnothing : byte.toBitVec.setWidth 32 >>> 8 = 0#32 := by
    refine BitVec.eq_of_toNat_eq ?_
    have := byte.toBitVec.isLt
    simp only [BitVec.toNat_ushiftRight, BitVec.toNat_setWidth, BitVec.toNat_ofNat]
    omega
  rw [feedAll_eq POLY (by rw [length_bitsOf, length_singleton]; decide), hword, look_eq (by decide)]
  show _ = shifts POLY 8 _
  rw [shifts_eight (crc ^^^ _), BitVec.ushiftRight_xor_distrib, hnothing, BitVec.xor_zero]

/-- **THE LOOPS** are the definition on all the bytes. -/
theorem blocks_eq (n : Nat) (crc : BitVec 32) {data : Bytes} (h : 16 * n ≤ data.length) :
    blocks n crc data = feedAll POLY crc (bitsOf data) := by
  induction n generalizing crc data with
  | zero =>
      rw [blocks]
      clear h
      induction data generalizing crc with
      | nil => rfl
      | cons byte data ih =>
          rw [foldl_cons, ih, byte_eq, ← feedAll_append, ← bitsOf_append]
          rfl
  | succ n ih =>
      have hcut := take_append_drop 16 data
      rw [blocks, ih _ (by rw [length_drop]; omega), round_eq crc (by rw [length_take]; omega),
        ← feedAll_append, ← bitsOf_append, hcut]

theorem crc32cAppend_eq (previous : BitVec 32) (data : Bytes) :
    crc32cAppend previous data = ~~~ feedAll POLY (~~~ previous) (bitsOf data) := by
  rw [crc32cAppend, blocks_eq _ _ (by omega)]

/-! ## The three properties -/

/-- Byte strings are told apart by their bits. -/
theorem bitsOf_injective {a b : Bytes} (h : bitsOf a = bitsOf b) : a = b := by
  induction a generalizing b with
  | nil =>
      have hlen := congrArg List.length h
      rw [length_bitsOf, length_bitsOf] at hlen
      exact (length_eq_zero_iff.mp (by simpa using hlen.symm)).symm
  | cons x a ih =>
      cases b with
      | nil => nomatch h
      | cons y b =>
          obtain ⟨hbyte, hrest⟩ := append_inj h (by simp)
          have hxy : x.toBitVec = y.toBitVec := BitVec.eq_of_getLsbD_eq fun i hi =>
            map_inj_left.mp hbyte i (mem_range.mpr hi)
          rw [UInt8.toBitVec_inj.mp hxy, ih hrest]

/-- **CRC-32C**: the checksum of the pages is the standard's, it can be continued
    over more data, and it shows every change that stays within 32 bits. -/
theorem crc32c_is_castagnoli :
    (∀ data, crc32c data = castagnoli data)
    ∧ (∀ a b, crc32cAppend (crc32c a) b = crc32c (a ++ b))
    ∧ ∀ (a b : Bytes) (start : Nat), a.length = b.length → a ≠ b →
        (∀ i, i < start ∨ start + 32 ≤ i → (bitsOf a)[i]? = (bitsOf b)[i]?) →
          crc32c a ≠ crc32c b := by
  refine ⟨fun data => crc32cAppend_eq 0#32 data, fun a b => ?_, ?_⟩
  · rw [crc32c, crc32c, crc32cAppend_eq, crc32cAppend_eq, crc32cAppend_eq, BitVec.not_not,
      bitsOf_append, feedAll_append]
  · intro a b start hlen hne hwindow heq
    have hfront : (bitsOf b).take start = (bitsOf a).take start := by
      refine ext_getElem? fun i => ?_
      rw [getElem?_take, getElem?_take]
      split
      · next hi => exact (hwindow i (.inl hi)).symm
      · rfl
    have hback : (bitsOf b).drop (start + 32) = (bitsOf a).drop (start + 32) := by
      refine ext_getElem? fun i => ?_
      rw [getElem?_drop, getElem?_drop]
      exact (hwindow _ (.inr (Nat.le_add_right _ _))).symm
    have hcut : ∀ l : List Bool, l = l.take start ++ (l.drop start).take 32
        ++ l.drop (start + 32) := by
      intro l
      rw [append_assoc, ← drop_drop, take_append_drop, take_append_drop]
    have hmid : ((bitsOf a).drop start).take 32 ≠ ((bitsOf b).drop start).take 32 := by
      intro hsame
      refine hne (bitsOf_injective ?_)
      rw [hcut (bitsOf a), hcut (bitsOf b), hfront, hback, hsame]
    refine feedAll_burst (show POLY.msb = true by decide) ?_ ?_ hmid ((bitsOf a).take start)
      ((bitsOf a).drop (start + 32)) (~~~ 0#32) ?_
    · rw [length_take, length_take, length_drop, length_drop, length_bitsOf,
        length_bitsOf, hlen]
    · exact (length_take_le ..)
    · rw [← hcut, ← hfront, ← hback, ← hcut]
      rw [crc32c, crc32c, crc32cAppend_eq, crc32cAppend_eq] at heq
      exact BitVec.not_inj.mp heq

/-- The check value that every specification of a checksum carries. -/
example : crc32c [0x31, 0x32, 0x33, 0x34, 0x35, 0x36, 0x37, 0x38, 0x39] = 0xe3069283#32 := by
  decide +kernel

/-- Nine bytes and the same with 32 bits of them flipped, from the middle of the
    second byte to the middle of the sixth. -/
theorem crc32c_is_castagnoli_burst :
    crc32c [0x31, 0x32, 0x33, 0x34, 0x35, 0x36, 0x37, 0x38, 0x39]
      ≠ crc32c [0x31, 0xc2, 0xcc, 0xcb, 0xca, 0x39, 0x37, 0x38, 0x39] := by
  have hsame : ∀ i < 72, i < 12 ∨ 12 + 32 ≤ i →
      (bitsOf [0x31, 0x32, 0x33, 0x34, 0x35, 0x36, 0x37, 0x38, 0x39])[i]?
        = (bitsOf [0x31, 0xc2, 0xcc, 0xcb, 0xca, 0x39, 0x37, 0x38, 0x39])[i]? := by
    decide +kernel
  refine crc32c_is_castagnoli.2.2 _ _ 12 rfl (by decide) fun i hi => ?_
  by_cases hshort : i < 72
  · exact hsame i hshort hi
  · rw [getElem?_eq_none (not_lt.mp hshort), getElem?_eq_none (not_lt.mp hshort)]

end QuantyCrc
