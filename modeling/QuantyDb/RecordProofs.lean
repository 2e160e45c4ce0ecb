import QuantyDb.SqlitePayloadProofs

/-! # A record reads back as it was laid out

    A record is a header, which spells its own length and the serial type of
    each value, and the bytes of the values one after the other.  Whoever wrote
    it had a choice: an integer in any width that holds it, and every number of
    the header in any spelling of the format. -/

namespace QuantySqlite

open QuantyPage BigEndian Outcome List QuantySqlite SerialType

/-! ## Texts -/

/-- The UTF-16 code units of a character. -/
def utf16Units (c : Char) : List Nat :=
  if c.toNat < 0x10000 then [c.toNat]
  else [0xD800 + (c.toNat - 0x10000) / 0x400, 0xDC00 + (c.toNat - 0x10000) % 0x400]

def unitBytes (bigEndian : Bool) (u : Nat) : Bytes :=
  if bigEndian then [UInt8.ofNat (u / 256), UInt8.ofNat u]
  else [UInt8.ofNat u, UInt8.ofNat (u / 256)]

/-- The bytes of a text. -/
def textBytes (encoding : TextEncoding) (text : String) : Bytes :=
  match encoding with
  | .utf8 => text.toUTF8.data.toList
  | _ => (text.toList.flatMap utf16Units).flatMap (unitBytes (encoding = .utf16Be))

theorem fromUtf16_units (text : List Char) : fromUtf16 (text.flatMap utf16Units) = some text := by
  induction text with
  | nil => rfl
  | cons c text ih =>
      have hvalid : c.toNat < 0xD800 ∨ 0xDFFF < c.toNat ∧ c.toNat < 0x110000 := c.valid
      rw [flatMap_cons, utf16Units]
      split
      · rw [singleton_append, fromUtf16.eq_def]
        dsimp only
        rw [if_pos (by omega), ih, Char.ofNat_toNat]
        rfl
      · -- a pair of surrogates
        have hpair : 0x10000 + (0xD800 + (c.toNat - 0x10000) / 0x400 - 0xD800) * 0x400
            + (0xDC00 + (c.toNat - 0x10000) % 0x400 - 0xDC00) = c.toNat := by omega
        rw [cons_append, singleton_append, fromUtf16.eq_def]
        dsimp only
        rw [if_neg (by omega), if_neg (by omega), if_pos (by omega), ih, hpair, Char.ofNat_toNat]
        rfl

theorem utf16Units_lt (c : Char) : ∀ u ∈ utf16Units c, u < 65536 := by
  have hvalid : c.toNat < 0xD800 ∨ 0xDFFF < c.toNat ∧ c.toNat < 0x110000 := c.valid
  intro u hu
  rw [utf16Units] at hu
  split at hu
  · rw [mem_singleton.mp hu]
    omega
  · simp only [mem_cons, not_mem_nil, or_false] at hu
    omega

/-- Two bytes to a unit, in either order. -/
theorem codeUnits_bytes (bigEndian : Bool) {units : List Nat} (h : ∀ u ∈ units, u < 65536) :
    codeUnits bigEndian (units.flatMap (unitBytes bigEndian)) = units ∧
      (units.flatMap (unitBytes bigEndian)).length % 2 = 0 := by
  induction units with
  | nil => exact ⟨rfl, rfl⟩
  | cons u units ih =>
      obtain ⟨hu, hrest⟩ := forall_mem_cons.mp h
      obtain ⟨hunits, hlen⟩ := ih hrest
      have hhigh : u / 256 % 256 * 256 + u % 256 = u := by omega
      have htwo : (unitBytes bigEndian u).length = 2 := by cases bigEndian <;> rfl
      rw [flatMap_cons, length_append, htwo, unitBytes]
      refine ⟨?_, by omega⟩
      cases bigEndian <;> simp [codeUnits, hunits, hhigh]

theorem textFrom_bytes (encoding : TextEncoding) (text : String) :
    textFrom (textBytes encoding text) encoding = .ok text := by
  have hsmall : ∀ u ∈ text.toList.flatMap utf16Units, u < 65536 := fun u hu =>
    (mem_flatMap.mp hu).elim fun c hc => utf16Units_lt c u hc.2
  cases encoding with
  | utf8 =>
      have hback : String.fromUTF8? ⟨text.toUTF8.data⟩ = some text := by
        simpa [String.fromUTF8?, String.fromUTF8] using text.isValidUTF8
      rw [textFrom, textBytes, Array.toArray_toList, hback]
  | utf16Le | utf16Be =>
      obtain ⟨hunits, hlen⟩ := codeUnits_bytes _ hsmall
      rw [textFrom.eq_def, textBytes.eq_def]
      dsimp only
      rw [if_neg (not_not_intro hlen), hunits, fromUtf16_units]
      exact congrArg Except.ok String.ofList_toList

/-! ## Values -/

/-- The number of a serial type. -/
def SerialType.code : SerialType → Nat
  | .null => 0
  | .int w => if w ≤ 4 then w else w / 2 + 2
  | .float => 7
  | .zero => 8
  | .one => 9
  | .blob len => 12 + 2 * len
  | .text len => 13 + 2 * len

/-- A value in the body of a record, in one of the types it may have. -/
inductive Stores (encoding : TextEncoding) : SqliteValue → SerialType → Bytes → Prop
  | null : Stores encoding .null .null []
  | zero : Stores encoding (.integer 0) .zero []
  | one : Stores encoding (.integer 1) .one []
  | int {w : Nat} {i : Int} : w ∈ SerialType.INT_WIDTHS → -2 ^ (8 * w - 1) ≤ i →
      i < 2 ^ (8 * w - 1) →
      Stores encoding (.integer i) (.int w) (be w (i % 2 ^ (8 * w)).toNat)
  | float (bits : UInt64) : Stores encoding (.real bits) .float (be 8 bits.toNat)
  | blob (bytes : Bytes) : Stores encoding (.blob bytes) (.blob bytes.length) bytes
  | text (text : String) :
      Stores encoding (.text text) (.text (textBytes encoding text).length)
        (textBytes encoding text)

variable {encoding : TextEncoding} {v : SqliteValue} {type : SerialType} {bytes : Bytes}

theorem Stores.width (h : Stores encoding v type bytes) : type.width = bytes.length := by
  cases h with
  | int | float => exact (length_be _ _).symm
  | _ => rfl

theorem fromCode_wide {code : Nat} (h : 12 ≤ code) : fromCode code
    = .ok (if code % 2 = 0 then .blob ((code - 12) / 2) else .text ((code - 13) / 2)) := by
  rw [fromCode, if_neg (by omega), if_neg (by omega), if_neg (by omega), if_neg (by omega),
    if_neg (by omega), if_neg (by omega)]
  split
  · rw [minus, if_pos h]
    rfl
  · rw [minus, if_pos (by omega)]
    rfl

theorem Stores.fromCode (h : Stores encoding v type bytes) :
    fromCode type.code = .ok type := by
  cases h with
  | int hw =>
      simp only [SerialType.INT_WIDTHS, mem_cons, not_mem_nil, or_false] at hw
      rcases hw with rfl | rfl | rfl | rfl | rfl | rfl <;> rfl
  | blob bytes =>
      rw [code, fromCode_wide (by omega), if_pos (by omega), Nat.add_sub_cancel_left,
        Nat.mul_div_cancel_left _ two_pos]
  | text text =>
      rw [code, fromCode_wide (by omega), if_neg (by omega), Nat.add_sub_cancel_left,
        Nat.mul_div_cancel_left _ two_pos]
  | _ => rfl

theorem signedBe_be {w : Nat} {i : Int} (hw : w ∈ SerialType.INT_WIDTHS)
    (hlo : -2 ^ (8 * w - 1) ≤ i) (hhi : i < 2 ^ (8 * w - 1)) :
    signedBe (be w (i % 2 ^ (8 * w)).toNat) = .ok i := by
  rw [signedBe, length_be, ofBe_be]
  simp only [SerialType.INT_WIDTHS, mem_cons, not_mem_nil, or_false] at hw
  rcases hw with rfl | rfl | rfl | rfl | rfl | rfl
  case inr.inr.inr.inr.inr =>
    rw [if_neg (by decide), asI64]
    refine congrArg Except.ok ?_
    split <;> omega
  all_goals
    rw [if_pos (by decide), minus, if_pos (by decide), ok_bind]
    refine congrArg Except.ok ?_
    split <;> omega

theorem Stores.valueOf (h : Stores encoding v type bytes) :
    valueOf encoding type bytes = .ok v := by
  cases h with
  | int hw hlo hhi =>
      rw [valueOf, signedBe_be hw hlo hhi]
      rfl
  | float bits =>
      have hlt : bits.toNat < 256 ^ 8 := bits.toNat_lt
      rw [valueOf, eightBytes, if_pos (length_be _ _), ok_bind, ofBe_be, Nat.mod_eq_of_lt hlt,
        UInt64.ofNat_toNat]
      rfl
  | text text =>
      rw [valueOf, textFrom_bytes]
      rfl
  | _ => rfl

/-! ## Records -/

/-- Values in the types chosen for them: the types as a header spells them, and
    the body. -/
inductive Laid (encoding : TextEncoding) :
    List SqliteValue → List SerialType → Bytes → Bytes → Prop
  | nil : Laid encoding [] [] [] []
  | cons {v : SqliteValue} {type : SerialType} {bytes spelled header body : Bytes}
      {values : List SqliteValue} {types : List SerialType} : Stores encoding v type bytes →
      type.code < 2 ^ 63 → Varint spelled type.code → Laid encoding values types header body →
      Laid encoding (v :: values) (type :: types) (spelled ++ header) (bytes ++ body)

variable {values : List SqliteValue} {types : List SerialType} {header body : Bytes}

theorem between_append (a b c : Bytes) :
    between (a ++ b ++ c) a.length (a.length + b.length) = .ok b := by
  rw [between, if_pos (by simp), Nat.add_sub_cancel_left, append_assoc, drop_left,
    take_left]

theorem Varint.length_pos {value : Nat} (h : Varint bytes value) : 0 < bytes.length := by
  cases h <;> simp

/-- **THE HEADER**, wherever it stands. -/
theorem Laid.readTypes (h : Laid encoding values types header body) (before after : Bytes)
    (fuel : Nat) (hfuel : header.length ≤ fuel) :
    readTypes (before ++ header ++ after) (before.length + header.length) fuel before.length
      = .ok types := by
  induction h generalizing before fuel with
  | nil =>
      rw [readTypes.eq_def]
      exact if_neg (Nat.lt_irrefl _)
  | @cons v type bytes spelled header body values types hstores hsmall hspelled _ ih =>
      have hpos := hspelled.length_pos
      rw [length_append] at hfuel ⊢
      obtain ⟨fuel, rfl⟩ : ∃ f, fuel = f + 1 := ⟨fuel - 1, by omega⟩
      have hrest := ih (before ++ spelled) fuel (by omega)
      rw [append_assoc before, length_append, Nat.add_assoc] at hrest
      rw [readTypes.eq_def]
      dsimp only
      rw [if_pos (by omega), ← length_append, between_append, ok_bind,
        readUnsigned_append hspelled hsmall, ok_bind]
      dsimp only
      rw [hstores.fromCode, ok_bind, length_append, hrest, ok_bind]
      rfl

/-- **THE BODY**, wherever it stands. -/
theorem Laid.readValues (h : Laid encoding values types header body) (before : Bytes)
    (hsize : (before ++ body).length < 2 ^ 64) :
    readValues (before ++ body) encoding types before.length = .ok values := by
  induction h generalizing before with
  | nil => rfl
  | @cons v type bytes spelled header body values types hstores _ _ _ ih =>
      rw [length_append, length_append] at hsize
      have hrest := ih (before ++ bytes) (by rw [append_assoc]; simpa using hsize)
      rw [append_assoc, length_append] at hrest
      rw [QuantySqlite.readValues, hstores.width, refuse, dif_neg (by omega), ok_bind]
      dsimp only
      rw [refuse, dif_neg (by simp), ok_bind, ← append_assoc, between_append, ok_bind,
        hstores.valueOf, ok_bind, append_assoc, hrest, ok_bind]
      rfl

/-- A number of 64 bits, as it is signed. -/
theorem asI64_emod {i : Int} (hlo : -2 ^ 63 ≤ i) (hhi : i < 2 ^ 63) :
    asI64 (i % 2 ^ 64).toNat = i := by
  rw [asI64]
  split <;> omega

/-- **RECORDS READ BACK** as they were laid out, whatever types and spellings
    were chosen, in every text encoding; and a varint of any length reads as the
    number it spells, whatever follows. -/
theorem records_read_back :
    (∀ (encoding : TextEncoding) (values : List SqliteValue) (types : List SerialType)
      (size header body : Bytes), Laid encoding values types header body →
      Varint size (size.length + header.length) → (size ++ header ++ body).length < 2 ^ 63 →
      decodeRecord (size ++ header ++ body) encoding = .ok values) ∧
    ∀ (i : Int) (bytes rest : Bytes), -2 ^ 63 ≤ i → i < 2 ^ 63 → Varint bytes (i % 2 ^ 64).toNat →
      readVarint (bytes ++ rest) = .ok (i, bytes.length) := by
  constructor
  · intro encoding values types size header body hlaid hspelled hsize
    rw [length_append, length_append] at hsize
    rw [decodeRecord, append_assoc, readUnsigned_append hspelled (by omega), ok_bind]
    dsimp only
    rw [refuse, dif_neg (by simp), ok_bind, ← append_assoc,
      hlaid.readTypes size body _ (Nat.le_add_left _ _), ok_bind, ← length_append]
    exact hlaid.readValues (size ++ header) (by simp; omega)
  · intro i bytes rest hlo hhi hspelled
    rw [readVarint_append hspelled, asI64_emod hlo hhi]

/-- Nothing, a negative integer in two bytes, a text in UTF-16 and a blob whose
    type takes two bytes; and the longest varint, with a byte behind it. -/
theorem records_read_back_four :
    decodeRecord ([6] ++ [0, 2, 17, 129, 4] ++ ([254, 212, 0, 97] ++ List.replicate 60 7)) .utf16Be
      = .ok [.null, .integer (-300), .text "a", .blob (List.replicate 60 7)]
    ∧ readVarint (List.replicate 9 255 ++ [1]) = .ok (-1, 9) := by
  have hlaid : Laid .utf16Be [.null, .integer (-300), .text "a", .blob (List.replicate 60 7)]
      [.null, .int 2, .text 2, .blob 60] [0, 2, 17, 129, 4]
      ([254, 212, 0, 97] ++ List.replicate 60 7) := by
    refine .cons .null (by decide) (.short [] 0 (by decide) nofun (by decide)) ?_
    refine .cons (.int (w := 2) (i := -300) (by decide) (by decide) (by decide)) (by decide)
      (.short [] 2 (by decide) nofun (by decide)) ?_
    refine .cons (.text "a" : Stores .utf16Be _ _ _) (by decide)
      (.short [] 17 (by decide) nofun (by decide)) ?_
    have hspelled : Varint [129, 4] 132 := .short [129] 4 (by decide) (by simp) (by decide)
    exact .cons (.blob (List.replicate 60 7)) (by rw [length_replicate]; decide) hspelled .nil
  constructor
  · exact records_read_back.1 .utf16Be _ _ [6] _ _ hlaid (.short [] 6 (by decide) nofun (by decide))
      (by decide)
  · have hvalue : septets 0 (List.replicate 8 255) * 256 + (255 : UInt8).toNat
        = ((-1 : Int) % 2 ^ 64).toNat := by
      decide +kernel
    refine records_read_back.2 (-1) (List.replicate 8 255 ++ [255]) [1] (by omega) (by omega) ?_
    exact hvalue ▸ .long (List.replicate 8 255) 255 rfl (by simp)

end QuantySqlite
