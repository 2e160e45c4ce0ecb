import Mathlib

/-! # Byte strings under `memcmp`

    A key is a byte string and two keys compare byte by byte, a proper prefix
    first.  That is the lexicographic order on lists over the order of bytes,
    so both come from Mathlib; the type is named so that its order cannot be
    mixed up with the order core puts on lists. -/

namespace QuantyKey

open List

/-- Bytes compare as the numbers they stand for. -/
instance linearOrderUInt8 : LinearOrder UInt8 where
  le_refl a := UInt8.le_refl a
  le_trans _ _ _ := UInt8.le_trans
  le_antisymm _ _ := UInt8.le_antisymm
  lt_iff_le_not_ge a b := by
    simp only [UInt8.lt_iff_toNat_lt, UInt8.le_iff_toNat_le]
    omega
  le_total a b := UInt8.le_total a b
  toDecidableLE := inferInstance
  toDecidableEq := inferInstance
  toDecidableLT := inferInstance

/-- A byte string that is compared with `memcmp`. -/
def Key : Type := List UInt8

namespace Key

instance : LinearOrder Key := inferInstanceAs (LinearOrder (List UInt8))

instance : DecidableEq Key := inferInstanceAs (DecidableEq (List UInt8))

instance : Inhabited Key := inferInstanceAs (Inhabited (List UInt8))

instance : Repr Key := inferInstanceAs (Repr (List UInt8))

/-- The bytes of a key. -/
def bytes (k : Key) : List UInt8 := k

/-- How many bytes a key has. -/
def length (k : Key) : Nat := List.length k.bytes

end Key

/-! ## Comparing -/

/-- `memcmp`, a proper beginning first: the order of keys. -/
def memcmp (a b : List UInt8) : Ordering := compare (α := Key) a b

section Compare

variable {x y : UInt8} {xs ys p : List UInt8}

theorem memcmp_self (a : List UInt8) : memcmp a a = .eq := compare_eq_iff_eq.mpr rfl

theorem memcmp_swap (a b : List UInt8) : (memcmp a b).swap = memcmp b a := by
  rcases lt_trichotomy (α := Key) a b with h | h | h
  · rw [memcmp, memcmp, compare_lt_iff_lt.mpr h, compare_gt_iff_gt.mpr h]
    rfl
  · rw [memcmp, memcmp, compare_eq_iff_eq.mpr h, compare_eq_iff_eq.mpr h.symm]
    rfl
  · rw [memcmp, memcmp, compare_gt_iff_gt.mpr h, compare_lt_iff_lt.mpr h]
    rfl

/-- The first byte decides, and a tie goes to the rest. -/
theorem memcmp_cons : memcmp (x :: xs) (y :: ys) = (compare x y).then (memcmp xs ys) := by
  rcases lt_trichotomy x y with h | h | h
  · rw [compare_lt_iff_lt.mpr h]
    exact compare_lt_iff_lt.mpr (cons_lt_cons_iff.mpr (.inl h))
  · subst h
    rw [compare_eq_iff_eq.mpr (rfl : x = x), Ordering.eq_then]
    rcases lt_trichotomy (α := Key) xs ys with h | h | h
    · rw [memcmp, memcmp, compare_lt_iff_lt.mpr h]
      exact compare_lt_iff_lt.mpr (cons_lt_cons_iff.mpr (.inr ⟨rfl, h⟩))
    · rw [memcmp, memcmp, compare_eq_iff_eq.mpr h]
      exact compare_eq_iff_eq.mpr (congrArg (List.cons x) h)
    · rw [memcmp, memcmp, compare_gt_iff_gt.mpr h]
      exact compare_gt_iff_gt.mpr (cons_lt_cons_iff.mpr (.inr ⟨rfl, h⟩))
  · rw [compare_gt_iff_gt.mpr h]
    exact compare_gt_iff_gt.mpr (cons_lt_cons_iff.mpr (.inl h))

theorem memcmp_nil_cons : memcmp [] (y :: ys) = .lt :=
  compare_lt_iff_lt.mpr (nil_lt_cons y ys)

theorem memcmp_cons_nil : memcmp (x :: xs) [] = .gt :=
  compare_gt_iff_gt.mpr (nil_lt_cons x xs)

/-- What two keys share in front does not matter. -/
theorem memcmp_append_left : memcmp (p ++ xs) (p ++ ys) = memcmp xs ys := by
  induction p with
  | nil => rfl
  | cons b p ih =>
      rw [cons_append, cons_append, memcmp_cons, ih, compare_eq_iff_eq.mpr rfl,
        Ordering.eq_then]

end Compare

end QuantyKey
