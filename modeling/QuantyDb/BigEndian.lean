import QuantyDb.KeyOrder

/-! # Big-endian numbers

    Numbers as fixed-width byte strings, highest byte first.  Such strings
    compare as the numbers do, whatever follows them. -/

namespace BigEndian

open QuantyKey List

/-- The `w` lowest bytes of a number, highest first. -/
def be : Nat → Nat → List UInt8
  | 0, _ => []
  | w + 1, n => UInt8.ofNat (n / 256 ^ w) :: be w n

/-- The number that a byte string spells. -/
def ofBe (bs : List UInt8) : Nat := bs.foldl (fun n b => n * 256 + b.toNat) 0

@[simp] theorem length_be (w n : Nat) : (be w n).length = w := by
  induction w with
  | zero => rfl
  | succ w ih => rw [be, length_cons, ih]

theorem ofBe_append (a b : List UInt8) : ofBe (a ++ b) = ofBe a * 256 ^ b.length + ofBe b := by
  induction b using List.reverseRecOn with
  | nil => simp [ofBe]
  | append_singleton b x ih =>
      have hsnoc : ∀ l : List UInt8, ofBe (l ++ [x]) = ofBe l * 256 + x.toNat := fun l => by
        simp [ofBe, foldl_append]
      rw [← append_assoc, hsnoc, hsnoc, ih, length_append, length_singleton, pow_succ]
      ring

theorem ofBe_cons (x : UInt8) (b : List UInt8) :
    ofBe (x :: b) = x.toNat * 256 ^ b.length + ofBe b := by
  have h := ofBe_append [x] b
  simpa [ofBe] using h

/-- Bytes past the width are lost. -/
theorem ofBe_be (w n : Nat) : ofBe (be w n) = n % 256 ^ w := by
  induction w with
  | zero => simp [be, ofBe, Nat.mod_one]
  | succ w ih =>
      have hbyte : (UInt8.ofNat (n / 256 ^ w)).toNat = n / 256 ^ w % 256 := by
        simp [UInt8.toNat_ofNat']
      rw [be, ofBe_cons, ih, length_be, hbyte, pow_succ, Nat.mod_mul]
      ring

theorem ofBe_lt (b : List UInt8) : ofBe b < 256 ^ b.length := by
  induction b with
  | nil => simp [ofBe]
  | cons x b ih =>
      have hx : x.toNat + 1 ≤ 256 := x.toNat_lt
      have hmul : (x.toNat + 1) * 256 ^ b.length ≤ 256 * 256 ^ b.length :=
        Nat.mul_le_mul_right _ hx
      rw [Nat.add_mul, Nat.one_mul] at hmul
      rw [ofBe_cons, length_cons, pow_succ, Nat.mul_comm (256 ^ b.length)]
      omega

/-- The bytes of a number depend on its low part only. -/
theorem be_mod (w n k : Nat) (hk : w ≤ k) : be w (n % 256 ^ k) = be w n := by
  induction w with
  | zero => rfl
  | succ w ih =>
      have hbyte : n % 256 ^ k / 256 ^ w % 256 = n / 256 ^ w % 256 := by
        obtain ⟨d, rfl⟩ := Nat.exists_eq_add_of_le hk
        rw [show w + 1 + d = w + (1 + d) by omega, pow_add, Nat.mod_mul_right_div_self,
          pow_add, pow_one, Nat.mod_mul_right_mod]
      rw [be, be, ih (Nat.le_of_succ_le hk)]
      congr 1
      apply UInt8.toNat_inj.mp
      simpa [UInt8.toNat_ofNat'] using hbyte

/-- Every byte string of the width is the spelling of a number. -/
theorem be_ofBe (b : List UInt8) : be b.length (ofBe b) = b := by
  induction b with
  | nil => rfl
  | cons x b ih =>
      have hlt := ofBe_lt b
      have hpos : 0 < 256 ^ b.length := Nat.pow_pos (by omega)
      have hdiv : ofBe (x :: b) / 256 ^ b.length = x.toNat := by
        rw [ofBe_cons, Nat.add_comm, Nat.add_mul_div_right _ _ hpos, Nat.div_eq_of_lt hlt,
          Nat.zero_add]
      have hmod : ofBe (x :: b) % 256 ^ b.length = ofBe b := by
        rw [ofBe_cons, Nat.add_comm, Nat.add_mul_mod_self_right, Nat.mod_eq_of_lt hlt]
      rw [length_cons, be, hdiv, ← be_mod _ _ _ le_rfl, hmod, ih]
      congr 1
      exact UInt8.toNat_inj.mp (by simp)

/-! ## Order -/

/-- Numbers compare by quotient, then by remainder. -/
theorem compare_div_mod {k : Nat} (hk : 0 < k) (n m : Nat) :
    compare n m = (compare (n / k) (m / k)).then (compare (n % k) (m % k)) := by
  have hn := Nat.div_add_mod n k
  have hm := Nat.div_add_mod m k
  have hnr := Nat.mod_lt n hk
  have hmr := Nat.mod_lt m hk
  rcases lt_trichotomy (n / k) (m / k) with h | h | h
  · have hmul := Nat.mul_le_mul_left k (Nat.succ_le_of_lt h)
    rw [Nat.mul_succ] at hmul
    rw [compare_lt_iff_lt.mpr h, Ordering.lt_then]
    exact compare_lt_iff_lt.mpr (by omega)
  · rw [compare_eq_iff_eq.mpr h, Ordering.eq_then]
    rw [h] at hn
    rcases lt_trichotomy (n % k) (m % k) with h' | h' | h'
    · rw [compare_lt_iff_lt.mpr h']
      exact compare_lt_iff_lt.mpr (by omega)
    · rw [compare_eq_iff_eq.mpr h']
      exact compare_eq_iff_eq.mpr (by omega)
    · rw [compare_gt_iff_gt.mpr h']
      exact compare_gt_iff_gt.mpr (by omega)
  · have hmul := Nat.mul_le_mul_left k (Nat.succ_le_of_lt h)
    rw [Nat.mul_succ] at hmul
    rw [compare_gt_iff_gt.mpr h, Ordering.gt_then]
    exact compare_gt_iff_gt.mpr (by omega)

theorem compare_toNat (x y : UInt8) : compare x.toNat y.toNat = compare x y := by
  rcases lt_trichotomy x y with h | h | h
  · rw [compare_lt_iff_lt.mpr h]
    exact compare_lt_iff_lt.mpr (UInt8.lt_iff_toNat_lt.mp h)
  · rw [compare_eq_iff_eq.mpr h]
    exact compare_eq_iff_eq.mpr (congrArg UInt8.toNat h)
  · rw [compare_gt_iff_gt.mpr h]
    exact compare_gt_iff_gt.mpr (UInt8.lt_iff_toNat_lt.mp h)

/-- **NUMBERS COMPARE AS THEIR SPELLINGS**, and a tie goes to what follows. -/
theorem memcmp_be_append (w : Nat) {n m : Nat} (hn : n < 256 ^ w) (hm : m < 256 ^ w)
    (r s : List UInt8) :
    memcmp (be w n ++ r) (be w m ++ s) = (compare n m).then (memcmp r s) := by
  induction w generalizing n m with
  | zero =>
      obtain rfl : n = 0 := by simpa using hn
      obtain rfl : m = 0 := by simpa using hm
      rfl
  | succ w ih =>
      have hpos : 0 < 256 ^ w := Nat.pow_pos (by omega)
      have hbyte : ∀ {k : Nat}, k < 256 ^ (w + 1) →
          (UInt8.ofNat (k / 256 ^ w)).toNat = k / 256 ^ w := fun {k} hk => by
        have : k / 256 ^ w < 256 := Nat.div_lt_of_lt_mul (by rwa [pow_succ] at hk)
        simpa [UInt8.toNat_ofNat'] using this
      rw [be, be, cons_append, cons_append, memcmp_cons,
        ← be_mod w n w le_rfl, ← be_mod w m w le_rfl,
        ih (Nat.mod_lt _ hpos) (Nat.mod_lt _ hpos), ← compare_toNat, hbyte hn, hbyte hm,
        compare_div_mod hpos n m, Ordering.then_assoc]

end BigEndian
