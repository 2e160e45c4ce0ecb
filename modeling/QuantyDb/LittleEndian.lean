import Mathlib

/-! # Little-endian fields

    Numbers as fixed-width byte strings, lowest byte first, and records laid
    out as one such field after another.  `slice_layout` reads a field back
    from its offset, whatever stands before and after the record. -/

namespace LittleEndian

open List

variable {α : Type}

/-- The `w` lowest bytes of a number. -/
def le : Nat → Nat → List UInt8
  | 0, _ => []
  | w + 1, n => UInt8.ofNat n :: le w (n / 256)

/-- The number that a byte string spells. -/
def ofLe : List UInt8 → Nat
  | [] => 0
  | b :: bs => b.toNat + 256 * ofLe bs

@[simp] theorem length_le (w n : Nat) : (le w n).length = w := by
  induction w generalizing n with
  | zero => rfl
  | succ w ih => simp [le, ih]

/-- Bytes past the width are lost. -/
theorem ofLe_le_mod (w n : Nat) : ofLe (le w n) = n % 256 ^ w := by
  induction w generalizing n with
  | zero => simp [le, ofLe, Nat.mod_one]
  | succ w ih =>
      have hbyte : (UInt8.ofNat n).toNat = n % 256 := by simp [UInt8.toNat_ofNat']
      rw [le, ofLe, ih, hbyte, pow_succ', Nat.mod_mul]

variable {i n off w : Nat}

theorem ofLe_le (h : n < 256 ^ w) : ofLe (le w n) = n := by
  rw [ofLe_le_mod, Nat.mod_eq_of_lt h]

/-- A byte string is the spelling of its number at its own width. -/
theorem le_ofLe (bytes : List UInt8) : le bytes.length (ofLe bytes) = bytes := by
  induction bytes with
  | nil => rfl
  | cons b bytes ih =>
      have hdiv : (b.toNat + 256 * ofLe bytes) / 256 = ofLe bytes := by
        have := b.toNat_lt
        omega
      rw [length_cons, ofLe, le, hdiv, ih]
      refine congrArg (· :: bytes) (UInt8.toNat_inj.mp ?_)
      rw [UInt8.toNat_ofNat']
      have := b.toNat_lt
      omega

theorem ofLe_lt (bytes : List UInt8) : ofLe bytes < 256 ^ bytes.length := by
  induction bytes with
  | nil => decide
  | cons b bytes ih =>
      have := b.toNat_lt
      rw [ofLe, length_cons, pow_succ]
      omega

/-! ## Slices -/

/-- The `w` elements from an offset on. -/
def slice (off w : Nat) (l : List α) : List α := (l.drop off).take w

theorem slice_append {A B C : List α} (hA : A.length = off) (hB : B.length = w) :
    slice off w (A ++ (B ++ C)) = B := by
  rw [slice, ← hA, drop_left, ← hB, take_left]

theorem length_slice {l : List α} (h : off + w ≤ l.length) : (slice off w l).length = w := by
  rw [slice, length_take, length_drop]
  omega

theorem getElem?_slice (l : List α) (hi : i < w) : (slice off w l)[i]? = l[off + i]? := by
  rw [slice, getElem?_take_of_lt hi, getElem?_drop]

/-! ## Records -/

/-- A record of fields, each a width and a number. -/
def layout (fs : List (Nat × Nat)) : List UInt8 := fs.flatMap (fun f => le f.1 f.2)

/-- The offset of a field. -/
def offset (fs : List (Nat × Nat)) (i : Nat) : Nat := ((fs.take i).map Prod.fst).sum

theorem length_layout (fs : List (Nat × Nat)) : (layout fs).length = (fs.map Prod.fst).sum := by
  induction fs with
  | nil => rfl
  | cons f rest ih =>
      rw [layout, flatMap_cons, length_append, length_le, map_cons, sum_cons]
      exact congrArg (f.1 + ·) ih

/-- **READING A FIELD BACK**. -/
theorem slice_layout {fs : List (Nat × Nat)} (hi : fs[i]? = some (w, n)) (pre post : List UInt8) :
    slice (pre.length + offset fs i) w (pre ++ (layout fs ++ post)) = le w n := by
  obtain ⟨hlt, hget⟩ := List.getElem?_eq_some_iff.mp hi
  have hsplit : fs = fs.take i ++ (w, n) :: fs.drop (i + 1) := by
    rw [← hget, getElem_cons_drop, take_append_drop]
  have hlayout : layout fs = layout (fs.take i) ++ (le w n ++ layout (fs.drop (i + 1))) := by
    conv_lhs => rw [hsplit]
    simp [layout]
  rw [hlayout, append_assoc, ← append_assoc, append_assoc (le w n)]
  refine slice_append ?_ (length_le w n)
  rw [length_append, length_layout, offset]

/-- Bytes taken off the front are the front. -/
theorem cut_eq_ok {ε : Type} {e : ε} {buf front rest : List α} :
    (if n ≤ buf.length then Except.ok (buf.take n, buf.drop n) else .error e) = .ok (front, rest)
      ↔ front.length = n ∧ buf = front ++ rest := by
  constructor
  · intro h
    split at h
    · obtain ⟨rfl, rfl⟩ := Prod.mk.inj (Except.ok.inj h)
      exact ⟨by rw [length_take]; omega, (take_append_drop n buf).symm⟩
    · nomatch h
  · rintro ⟨rfl, rfl⟩
    rw [if_pos (by rw [length_append]; omega), take_left, drop_left]

end LittleEndian
