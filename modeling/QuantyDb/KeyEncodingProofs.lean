import QuantyDb.KeyEncoding

/-! # Keys keep the order of tuples, and decode to nothing else

    Every element of a key says where it ends.  A number ends after its eight
    bytes; an escaped element ends at a zero byte that `FF` does not follow,
    and no element begins with `FF`.  So what stands behind an element never
    takes part in comparing or in reading it: `memcmp_encode` and
    `decodeOne_encode` carry it along as `r`, and tuples follow by induction. -/

namespace QuantyEncoding

open QuantyKey QuantyPage BigEndian List Ordering

/-! ## Turned sign bits -/

theorem xor_two_pow {k x : Nat} (h : x < 2 ^ k) : x ^^^ 2 ^ k = x + 2 ^ k := by
  have hor : x + 2 ^ k = 2 ^ k ||| x := by
    have := Nat.two_pow_add_eq_or_of_lt h 1
    rwa [Nat.mul_one, Nat.add_comm] at this
  rw [hor]
  refine Nat.eq_of_testBit_eq fun i => ?_
  rw [Nat.testBit_xor, Nat.testBit_or, Nat.testBit_two_pow]
  by_cases hi : k = i
  · subst hi
    simp [Nat.testBit_lt_two_pow h]
  · simp [hi]

theorem toNat_SIGN : SIGN.toNat = 2 ^ 63 := rfl

/-- Turning the sign bit moves the upper half below the lower one. -/
theorem toNat_xor_SIGN (x : UInt64) :
    (x ^^^ SIGN).toNat = if x.toNat < 2 ^ 63 then x.toNat + 2 ^ 63 else x.toNat - 2 ^ 63 := by
  have hlt := x.toNat_lt
  rw [UInt64.toNat_xor, toNat_SIGN]
  split
  · next h => exact xor_two_pow h
  · next h =>
    obtain ⟨y, hy⟩ := Nat.exists_eq_add_of_le (not_lt.mp h)
    have hy' : y < 2 ^ 63 := by omega
    rw [hy, Nat.add_comm, ← xor_two_pow hy', Nat.xor_assoc, Nat.xor_self, Nat.xor_zero,
      xor_two_pow hy']
    omega

theorem and_SIGN (x : UInt64) : x &&& SIGN ≠ 0 ↔ 2 ^ 63 ≤ x.toNat := by
  have hlt := x.toNat_lt
  have hzero : x &&& SIGN = 0 ↔ x.toNat &&& 2 ^ 63 = 0 := by
    rw [← UInt64.toNat_inj, UInt64.toNat_and, toNat_SIGN]
    rfl
  have htest : x.toNat.testBit 63 = decide (2 ^ 63 ≤ x.toNat) := by
    rw [Nat.testBit_eq_decide_div_mod_eq, decide_eq_decide]
    omega
  have hand : x.toNat &&& 2 ^ 63 = (x.toNat.testBit 63).toNat * 2 ^ 63 := Nat.and_two_pow _ _
  rw [ne_eq, hzero, hand, htest]
  by_cases h : 2 ^ 63 ≤ x.toNat <;> simp

/-- An integer is written as its distance from the least one. -/
theorem toNat_int (i : Int64) : ((i.toUInt64 ^^^ SIGN).toNat : Int) = i.toInt + 2 ^ 63 := by
  have hlt := i.toUInt64.toNat_lt
  have hint : i.toInt = if 2 * i.toUInt64.toNat < 2 ^ 64 then (i.toUInt64.toNat : Int)
      else (i.toUInt64.toNat : Int) - 2 ^ 64 := BitVec.toInt_eq_toNat_cond i.toBitVec
  rw [toNat_xor_SIGN, hint]
  split <;> split <;> omega

/-- A float is written as its distance from the least one. -/
theorem toNat_float (bits : UInt64) :
    ((floatOrdered bits).toNat : Int) = totalOrder bits + 2 ^ 63 := by
  have hlt := bits.toNat_lt
  rw [floatOrdered, totalOrder]
  by_cases h : 2 ^ 63 ≤ bits.toNat
  · rw [if_pos ((and_SIGN bits).mpr h), if_neg (not_lt.mpr h), UInt64.toNat_not]
    have : UInt64.size = 2 ^ 64 := rfl
    omega
  · rw [if_neg (fun hs => h ((and_SIGN bits).mp hs)), if_pos (not_le.mp h), toNat_xor_SIGN,
      if_pos (not_le.mp h)]
    push_cast
    rfl

theorem floatBits_floatOrdered (bits : UInt64) : floatBits (floatOrdered bits) = bits := by
  have hlt := bits.toNat_lt
  rw [floatOrdered]
  by_cases h : bits &&& SIGN ≠ 0
  · have hs : ¬ (~~~bits &&& SIGN ≠ 0) := by
      rw [and_SIGN, UInt64.toNat_not]
      have := (and_SIGN bits).mp h
      have : UInt64.size = 2 ^ 64 := rfl
      omega
    rw [if_pos h, floatBits, if_neg hs, UInt64.not_not]
  · have hs : (bits ^^^ SIGN) &&& SIGN ≠ 0 := by
      rw [and_SIGN, toNat_xor_SIGN, if_pos (not_le.mp fun hle => h ((and_SIGN bits).mpr hle))]
      omega
    rw [if_neg h, floatBits, if_pos hs, UInt64.xor_assoc, UInt64.xor_self, UInt64.xor_zero]

theorem floatOrdered_floatBits (bits : UInt64) : floatOrdered (floatBits bits) = bits := by
  have hlt := bits.toNat_lt
  rw [floatBits]
  by_cases h : bits &&& SIGN ≠ 0
  · have hs : ¬ ((bits ^^^ SIGN) &&& SIGN ≠ 0) := by
      have hle := (and_SIGN bits).mp h
      rw [and_SIGN, toNat_xor_SIGN, if_neg (not_lt.mpr hle)]
      omega
    rw [if_pos h, floatOrdered, if_neg hs, UInt64.xor_assoc, UInt64.xor_self, UInt64.xor_zero]
  · have hs : ~~~bits &&& SIGN ≠ 0 := by
      rw [and_SIGN, UInt64.toNat_not]
      have hlt' : bits.toNat < 2 ^ 63 := not_le.mp fun hle => h ((and_SIGN bits).mpr hle)
      have : UInt64.size = 2 ^ 64 := rfl
      omega
    rw [if_neg h, floatOrdered, if_pos hs, UInt64.not_not]

/-! ## Order -/

/-- What stands behind an element does not begin with `FF`. -/
def Ended (r : Bytes) : Prop := r.head? ≠ some 0xFF

/-- Every encoding begins with its tag, and tags are in the order of ranks. -/
theorem encode_cons (v : Value) : ∃ tag rest, v.encode = tag :: rest ∧ tag.toNat = v.rank := by
  cases v <;> exact ⟨_, _, rfl, rfl⟩

theorem ended_encodeKey (vs : List Value) : Ended (encodeKey vs) := by
  cases vs with
  | nil => nofun
  | cons v vs =>
      obtain ⟨tag, rest, hv, htag⟩ := encode_cons v
      intro h
      rw [encodeKey, flatMap_cons, hv, cons_append, head?_cons] at h
      have hff : tag = 0xFF := Option.some.inj h
      rw [hff] at htag
      cases v <;> nomatch htag

variable {buf r : Bytes}

/-- `FF` is above everything that can end an element. -/
theorem memcmp_ended_cons (hr : Ended r) (s : Bytes) : memcmp r (0xFF :: s) = .lt := by
  cases r with
  | nil => exact memcmp_nil_cons
  | cons b r =>
      have hne : b ≠ 0xFF := fun h => hr (congrArg some h)
      have hle : b ≤ 0xFF := UInt8.le_iff_toNat_le.mpr (Nat.le_of_lt_succ b.toNat_lt)
      rw [memcmp_cons, compare_lt_iff_lt.mpr (lt_of_le_of_ne hle hne), lt_then]

/-- The empty string ends before any other goes on. -/
theorem memcmp_escape_nil (hr : Ended r) (b : UInt8) (bs s : Bytes) :
    memcmp (escape [] ++ r) (escape (b :: bs) ++ s) = .lt := by
  rw [escape, escape]
  by_cases hb : b = 0x00
  · rw [if_pos hb, cons_append, cons_append, cons_append, memcmp_cons,
      nil_append, memcmp_ended_cons hr]
    rfl
  · have hlt : (0x00 : UInt8) < b := by
      rw [UInt8.lt_iff_toNat_lt]
      exact Nat.pos_of_ne_zero fun h => hb (UInt8.toNat_inj.mp h)
    rw [if_neg hb, cons_append, cons_append, memcmp_cons,
      compare_lt_iff_lt.mpr hlt, lt_then]

/-- **ESCAPED STRINGS COMPARE AS THE STRINGS DO**, and a tie goes to what
    follows. -/
theorem memcmp_escape {s : Bytes} (hr : Ended r) (hs : Ended s) (a b : Bytes) :
    memcmp (escape a ++ r) (escape b ++ s)
      = (memcmp a b).then (memcmp r s) := by
  induction a generalizing b with
  | nil =>
      cases b with
      | nil => exact memcmp_cons
      | cons y b => rw [memcmp_escape_nil hr, memcmp_nil_cons, lt_then]
  | cons x a ih =>
      cases b with
      | nil =>
          rw [← memcmp_swap, memcmp_escape_nil hs, memcmp_cons_nil, gt_then]
          rfl
      | cons y b =>
          rw [memcmp_cons, then_assoc, ← ih b, escape, escape]
          by_cases hx : x = 0x00
          · by_cases hy : y = 0x00
            · rw [if_pos hx, if_pos hy, hx, hy]
              exact memcmp_append_left (p := [0x00, 0xFF])
            · have hlt : x < y := by
                rw [hx, UInt8.lt_iff_toNat_lt]
                exact Nat.pos_of_ne_zero fun h => hy (UInt8.toNat_inj.mp h)
              rw [if_pos hx, if_neg hy, cons_append, cons_append, cons_append, memcmp_cons, ← hx,
                compare_lt_iff_lt.mpr hlt, lt_then, lt_then]
          · by_cases hy : y = 0x00
            · have hlt : y < x := by
                rw [hy, UInt8.lt_iff_toNat_lt]
                exact Nat.pos_of_ne_zero fun h => hx (UInt8.toNat_inj.mp h)
              rw [if_neg hx, if_pos hy, cons_append, cons_append, cons_append, memcmp_cons, ← hy,
                compare_gt_iff_gt.mpr hlt, gt_then, gt_then]
            · rw [if_neg hx, if_neg hy, cons_append, cons_append, memcmp_cons]

/-- Numbers at one distance compare as they did. -/
theorem compare_shift {n m : Nat} {p q d : Int} (hn : (n : Int) = p + d) (hm : (m : Int) = q + d) :
    compare n m = compare p q := by
  rcases lt_trichotomy p q with h | h | h
  · rw [compare_lt_iff_lt.mpr h]
    exact compare_lt_iff_lt.mpr (by omega)
  · rw [compare_eq_iff_eq.mpr h]
    exact compare_eq_iff_eq.mpr (by omega)
  · rw [compare_gt_iff_gt.mpr h]
    exact compare_gt_iff_gt.mpr (by omega)

/-- Values of different types compare by rank. -/
theorem logicalCmp_of_rank_ne {v w : Value} (h : v.rank ≠ w.rank) :
    v.logicalCmp w = compare v.rank w.rank := by
  cases v <;> cases w <;> first | rfl | exact absurd rfl h

/-- Two elements with one tag compare as what follows the tag. -/
theorem memcmp_tagged (tag : UInt8) (a b : Bytes) :
    memcmp (tag :: a) (tag :: b) = memcmp a b :=
  memcmp_append_left (p := [tag])

/-- **ONE ELEMENT** compares as its value does, and a tie goes to the rest of
    the tuple. -/
theorem memcmp_encode (v w : Value) {s : Bytes} (hr : Ended r) (hs : Ended s) :
    memcmp (v.encode ++ r) (w.encode ++ s)
      = (v.logicalCmp w).then (memcmp r s) := by
  by_cases hrank : v.rank = w.rank
  · cases v <;> cases w <;> try (simp only [Value.rank, Nat.reduceEqDiff] at hrank; done)
    case null.null => exact memcmp_tagged TAG_NULL r s
    case bool.bool p q =>
      refine (memcmp_tagged TAG_BOOL _ _).trans ?_
      cases p <;> cases q <;> exact memcmp_cons
    case int.int p q =>
      refine (memcmp_tagged TAG_INT _ _).trans ?_
      refine (memcmp_be_append 8 (UInt64.toNat_lt _) (UInt64.toNat_lt _) r s).trans ?_
      rw [compare_shift (toNat_int p) (toNat_int q)]
      rfl
    case float.float p q =>
      refine (memcmp_tagged TAG_FLOAT _ _).trans ?_
      refine (memcmp_be_append 8 (UInt64.toNat_lt _) (UInt64.toNat_lt _) r s).trans ?_
      rw [compare_shift (toNat_float p) (toNat_float q)]
      rfl
    case text.text p q =>
      exact (memcmp_tagged TAG_TEXT _ _).trans (memcmp_escape hr hs (asBytes p) (asBytes q))
    case bytes.bytes p q =>
      exact (memcmp_tagged TAG_BYTES _ _).trans (memcmp_escape hr hs p q)
  · obtain ⟨tv, rv, hv, htv⟩ := encode_cons v
    obtain ⟨tw, rw', hw, htw⟩ := encode_cons w
    rw [hv, hw, cons_append, cons_append, memcmp_cons, ← compare_toNat, htv, htw,
      logicalCmp_of_rank_ne hrank]
    rcases lt_or_gt_of_ne hrank with h | h
    · rw [compare_lt_iff_lt.mpr h, lt_then, lt_then]
    · rw [compare_gt_iff_gt.mpr h, gt_then, gt_then]

/-- A tuple with something in it is above the empty one. -/
theorem memcmp_nil_encodeKey (v : Value) (vs : List Value) :
    memcmp [] (encodeKey (v :: vs)) = .lt := by
  obtain ⟨tag, rest, hv, -⟩ := encode_cons v
  rw [encodeKey, flatMap_cons, hv]
  exact memcmp_nil_cons

theorem memcmp_encodeKey (a b : List Value) :
    memcmp (encodeKey a) (encodeKey b) = logicalCmp a b := by
  induction a generalizing b with
  | nil =>
      cases b with
      | nil => rfl
      | cons w b => exact memcmp_nil_encodeKey w b
  | cons v a ih =>
      cases b with
      | nil =>
          have h := memcmp_swap [] (encodeKey (v :: a))
          rw [memcmp_nil_encodeKey] at h
          exact h.symm
      | cons w b =>
          rw [logicalCmp, ← ih b]
          exact memcmp_encode v w (ended_encodeKey a) (ended_encodeKey b)

/-! ## Decoding -/

/-- **AN ESCAPED STRING IS READ BACK** up to its terminator. -/
theorem unescape_escape (hr : Ended r) (a : Bytes) : unescape (escape a ++ r) = some (a, r) := by
  induction a with
  | nil =>
      cases r with
      | nil => rfl
      | cons b r =>
          have hne : b ≠ 0xFF := fun h => hr (congrArg some h)
          rw [escape, singleton_append, unescape, if_pos rfl, if_neg hne]
  | cons x a ih =>
      rw [escape]
      by_cases hx : x = 0x00
      · rw [if_pos hx, cons_append, cons_append, unescape, if_pos rfl, if_pos rfl, ih, hx]
        rfl
      · rw [if_neg hx, cons_append]
        -- the rest is not empty: it holds the terminator at least
        cases hrest : escape a ++ r with
        | nil =>
            rw [hrest] at ih
            nomatch ih
        | cons c rest =>
            rw [unescape, if_neg hx, ← hrest, ih]
            rfl

/-- Nothing else reads as that string. -/
theorem escape_unescape {a : Bytes} (h : unescape buf = some (a, r)) : buf = escape a ++ r := by
  induction buf using unescape.induct generalizing a with
  | case1 => nomatch h
  | case2 =>
      cases h
      rfl
  | case3 b hb =>
      rw [unescape, if_neg hb] at h
      nomatch h
  | case4 rest ih =>
      rw [unescape, if_pos rfl, if_pos rfl] at h
      obtain ⟨⟨a', r'⟩, hrest, heq⟩ := Option.map_eq_some_iff.mp h
      cases heq
      rw [escape, if_pos rfl, ih hrest]
      rfl
  | case5 c rest hc =>
      rw [unescape, if_pos rfl, if_neg hc] at h
      cases h
      rfl
  | case6 b c rest hb ih =>
      rw [unescape, if_neg hb] at h
      obtain ⟨⟨a', r'⟩, hrest, heq⟩ := Option.map_eq_some_iff.mp h
      cases heq
      rw [escape, if_neg hb, ih hrest]
      rfl

theorem asBytes_ofList (l : List Char) :
    asBytes (String.ofList l) = l.flatMap String.utf8EncodeChar := by
  rw [asBytes, String.toByteArray_ofList, List.utf8Encode, data_toByteArray]

theorem fromUtf8_asBytes (s : String) : fromUtf8 (asBytes s) = .ok s := by
  have harr : (⟨(asBytes s).toArray⟩ : ByteArray) = s.toByteArray := by
    rw [asBytes, Array.toArray_toList]
  rw [fromUtf8, harr, String.fromUTF8?, dif_pos s.isValidUTF8]
  rfl

theorem asBytes_fromUtf8 {b : Bytes} {s : String} (h : fromUtf8 b = .ok s) : asBytes s = b := by
  rw [fromUtf8, String.fromUTF8?] at h
  split at h
  · nomatch h
  · next t ht =>
    split at ht
    · cases ht
      cases h
      rfl
    · nomatch ht

theorem takeU64_be (what : String) (x : UInt64) (r : Bytes) :
    takeU64 what (be 8 x.toNat ++ r) = .ok (x, r) := by
  have hlen : ¬ (be 8 x.toNat ++ r).length < 8 := by
    rw [length_append, length_be]
    omega
  have hlt : x.toNat < 256 ^ 8 := x.toNat_lt
  rw [takeU64, if_neg hlen, take_left' (length_be _ _), drop_left' (length_be _ _), ofBe_be,
    Nat.mod_eq_of_lt hlt, UInt64.ofNat_toNat]

theorem be_takeU64 {what : String} {x : UInt64} (h : takeU64 what buf = .ok (x, r)) :
    buf = be 8 x.toNat ++ r := by
  rw [takeU64] at h
  split at h
  · nomatch h
  · next hlen =>
    cases h
    have htake : (buf.take 8).length = 8 := length_take_of_le (not_lt.mp hlen)
    have hlt := ofBe_lt (buf.take 8)
    rw [htake] at hlt
    rw [UInt64.toNat_ofNat_of_lt' hlt]
    have hbe := be_ofBe (buf.take 8)
    rw [htake] at hbe
    rw [hbe, take_append_drop]

/-- **ONE ELEMENT IS READ BACK**, whatever tuple follows. -/
theorem decodeOne_encode (v : Value) (hr : Ended r) : decodeOne (v.encode ++ r) = .ok (v, r) := by
  cases v with
  | null => rfl
  | bool b => cases b <;> rfl
  | int i =>
      show (takeU64 "truncated int" (be 8 (i.toUInt64 ^^^ SIGN).toNat ++ r) >>= _) = _
      rw [takeU64_be]
      show Except.ok (Value.int (i.toUInt64 ^^^ SIGN ^^^ SIGN).toInt64, r) = _
      rw [UInt64.xor_assoc, UInt64.xor_self, UInt64.xor_zero]
      rfl
  | float bits =>
      show (takeU64 "truncated float" (be 8 (floatOrdered bits).toNat ++ r) >>= _) = _
      rw [takeU64_be]
      show Except.ok (Value.float (floatBits (floatOrdered bits)), r) = _
      rw [floatBits_floatOrdered]
  | text s =>
      show (takeEscaped "unterminated text" (escape (asBytes s) ++ r) >>= _) = _
      rw [takeEscaped, unescape_escape hr]
      show (fromUtf8 (asBytes s) >>= fun s => pure (Value.text s, r)) = _
      rw [fromUtf8_asBytes]
      rfl
  | bytes b =>
      show (takeEscaped "unterminated bytes" (escape b ++ r) >>= _) = _
      rw [takeEscaped, unescape_escape hr]
      rfl

/-- How a call that reads one element ends: it took the encoding of a value
    off the buffer, or reports what is wrong. -/
def Reads (buf : Bytes) : Except Error (Value × Bytes) → Prop
  | .ok (v, r) => buf = v.encode ++ r
  | .error e => ∃ reason, e = .corrupted none reason

theorem takeU64_cases (what : String) (buf : Bytes) :
    (∃ x r, takeU64 what buf = .ok (x, r) ∧ buf = be 8 x.toNat ++ r)
      ∨ takeU64 what buf = .error (bad what) := by
  cases h : takeU64 what buf with
  | ok p => exact .inl ⟨p.1, p.2, rfl, be_takeU64 h⟩
  | error e =>
      rw [takeU64] at h
      split at h
      · cases h
        exact .inr rfl
      · nomatch h

theorem takeEscaped_cases (what : String) (buf : Bytes) :
    (∃ a r, takeEscaped what buf = .ok (a, r) ∧ buf = escape a ++ r)
      ∨ takeEscaped what buf = .error (bad what) := by
  rw [takeEscaped]
  cases h : unescape buf with
  | none => exact .inr rfl
  | some p => exact .inl ⟨p.1, p.2, rfl, escape_unescape h⟩

/-- **NOTHING BUT ENCODINGS IS ACCEPTED**. -/
theorem decodeOne_reads (buf : Bytes) : Reads buf (decodeOne buf) := by
  cases buf with
  | nil => exact ⟨_, rfl⟩
  | cons tag rest =>
      rw [decodeOne.eq_def]
      dsimp only
      split
      · next h => rw [h]; rfl
      split
      · next h =>
        rw [h]
        cases rest with
        | nil => exact ⟨_, rfl⟩
        | cons b rest =>
            by_cases h0 : b = 0
            · rw [h0]; rfl
            by_cases h1 : b = 1
            · rw [h1]; rfl
            simp only [if_neg h0, if_neg h1]
            exact ⟨_, rfl⟩
      split
      · next h =>
        rw [h]
        rcases takeU64_cases "truncated int" rest with ⟨x, r, hx, hbuf⟩ | he
        · rw [hx, hbuf]
          show _ = TAG_INT :: (be 8 (((x ^^^ SIGN).toInt64.toUInt64 ^^^ SIGN).toNat) ++ r)
          rw [UInt64.toUInt64_toInt64, UInt64.xor_assoc, UInt64.xor_self, UInt64.xor_zero]
        · rw [he]
          exact ⟨_, rfl⟩
      split
      · next h =>
        rw [h]
        rcases takeU64_cases "truncated float" rest with ⟨x, r, hx, hbuf⟩ | he
        · rw [hx, hbuf]
          show _ = TAG_FLOAT :: (be 8 (floatOrdered (floatBits x)).toNat ++ r)
          rw [floatOrdered_floatBits]
        · rw [he]
          exact ⟨_, rfl⟩
      split
      · next h =>
        rw [h]
        rcases takeEscaped_cases "unterminated text" rest with ⟨a, r, ha, hbuf⟩ | he
        · rw [ha, hbuf]
          show Reads _ (fromUtf8 a >>= fun s => pure (Value.text s, r))
          cases hs : fromUtf8 a with
          | ok s =>
              show _ = TAG_TEXT :: (escape (asBytes s) ++ r)
              rw [asBytes_fromUtf8 hs]
          | error e =>
              rw [fromUtf8] at hs
              split at hs
              · cases hs
                exact ⟨_, rfl⟩
              · nomatch hs
        · rw [he]
          exact ⟨_, rfl⟩
      split
      · next h =>
        rw [h]
        rcases takeEscaped_cases "unterminated bytes" rest with ⟨a, r, ha, hbuf⟩ | he
        · rw [ha, hbuf]
          rfl
        · rw [he]
          exact ⟨_, rfl⟩
      · exact ⟨_, rfl⟩

/-- The loop ends with the tuple, or with what is wrong. -/
theorem decodeLoop_reads {fuel : Nat} (hfuel : buf.length ≤ fuel) :
    (∃ vs, decodeLoop fuel buf = .ok vs ∧ encodeKey vs = buf)
      ∨ ∃ reason, decodeLoop fuel buf = .error (.corrupted none reason) := by
  induction fuel generalizing buf with
  | zero =>
      obtain rfl := eq_nil_of_length_eq_zero (Nat.le_zero.mp hfuel)
      exact .inl ⟨[], rfl, rfl⟩
  | succ fuel ih =>
      cases buf with
      | nil => exact .inl ⟨[], rfl, rfl⟩
      | cons b buf =>
          have hone := decodeOne_reads (b :: buf)
          rw [decodeLoop]
          cases hd : decodeOne (b :: buf) with
          | error e =>
              rw [hd] at hone
              obtain ⟨reason, rfl⟩ := hone
              exact .inr ⟨reason, rfl⟩
          | ok p =>
              obtain ⟨v, r⟩ := p
              rw [hd] at hone
              have hone' : b :: buf = v.encode ++ r := hone
              obtain ⟨tag, rest, hv, -⟩ := encode_cons v
              have hlen : r.length ≤ fuel := by
                have := congrArg List.length hone'
                rw [hv] at this
                simp only [length_cons, cons_append, length_append] at this hfuel
                omega
              rcases ih hlen with ⟨vs, hvs, henc⟩ | ⟨reason, he⟩
              · refine .inl ⟨v :: vs, ?_, ?_⟩
                · show (decodeLoop fuel r >>= fun vs => pure (v :: vs)) = _
                  rw [hvs]
                  rfl
                · rw [hone', ← henc]
                  rfl
              · refine .inr ⟨reason, ?_⟩
                show (decodeLoop fuel r >>= fun vs => pure (v :: vs)) = _
                rw [he]
                rfl

theorem decodeLoop_encode (vs : List Value) : ∀ {fuel : Nat},
    (encodeKey vs).bytes.length ≤ fuel → decodeLoop fuel (encodeKey vs) = .ok vs := by
  induction vs with
  | nil =>
      intro fuel _
      cases fuel <;> rfl
  | cons v vs ih =>
      intro fuel hfuel
      obtain ⟨tag, rest, hv, -⟩ := encode_cons v
      have hkey : encodeKey (v :: vs) = tag :: (rest ++ (encodeKey vs).bytes) := by
        rw [encodeKey, flatMap_cons, hv]
        rfl
      have hone : decodeOne (tag :: rest ++ (encodeKey vs).bytes) = .ok (v, (encodeKey vs).bytes) :=
        hv ▸ decodeOne_encode v (ended_encodeKey vs)
      rw [hkey] at hfuel ⊢
      cases fuel with
      | zero => exact absurd hfuel (Nat.not_succ_le_zero _)
      | succ fuel =>
          have hlen : (encodeKey vs).bytes.length ≤ fuel := by
            have hsum : (rest ++ (encodeKey vs).bytes).length + 1 ≤ fuel + 1 := hfuel
            rw [length_append] at hsum
            omega
          rw [decodeLoop]
          show (decodeOne (tag :: rest ++ (encodeKey vs).bytes) >>= _) = _
          rw [hone]
          show (decodeLoop fuel (encodeKey vs) >>= fun vs => pure (v :: vs)) = _
          rw [ih hlen]
          rfl

theorem decodeKey_encode (vs : List Value) : decodeKey (encodeKey vs) = .ok vs :=
  decodeLoop_encode vs le_rfl

theorem encodeKey_injective : Function.Injective encodeKey := by
  intro a b hab
  have h := decodeKey_encode a
  rw [hab, decodeKey_encode] at h
  exact (Except.ok.inj h).symm

/-- Only the key of a tuple decodes to it. -/
theorem encode_decodeKey {key : Key} {vs : List Value} (h : decodeKey key = .ok vs) :
    encodeKey vs = key := by
  rcases decodeLoop_reads le_rfl with ⟨vs', hvs, henc⟩ | ⟨_, he⟩
  · cases hvs.symm.trans h
    exact henc
  · nomatch he.symm.trans h

/-! ## The two contracts of the encoding -/

/-- **KEYS ARE IN THE ORDER OF TUPLES**: byte order of the keys is logical
    order of the tuples, so no two tuples share a key. -/
theorem encodeKey_order :
    (∀ a b : List Value, compare (encodeKey a) (encodeKey b) = logicalCmp a b)
      ∧ Function.Injective encodeKey := by
  exact ⟨fun a b => memcmp_encodeKey a b, encodeKey_injective⟩

/-- **DECODING INVERTS ENCODING AND NOTHING MORE**: a tuple comes back from its
    key, only its key decodes to it, and any other byte string is refused as
    corrupted. -/
theorem decodeKey_inverse :
    (∀ vs : List Value, decodeKey (encodeKey vs) = .ok vs)
      ∧ (∀ (key : Key) (vs : List Value), decodeKey key = .ok vs → encodeKey vs = key)
      ∧ ∀ key : Key, (∀ vs, encodeKey vs ≠ key) →
          ∃ reason, decodeKey key = .error (.corrupted none reason) := by
  refine ⟨decodeKey_encode, fun key vs h => encode_decodeKey h, ?_⟩
  intro key hno
  rcases decodeLoop_reads le_rfl with ⟨vs, -, henc⟩ | he
  · exact absurd henc (hno vs)
  · exact he

end QuantyEncoding
