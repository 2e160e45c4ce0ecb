import QuantyDb.LittleEndian

/-! # Stores into a buffer

    A buffer has a fixed length; a store overwrites a part of it in place.
    Stores that follow one another are one store of what they write together
    (`stores_eq`), and moving the tail of the used part up and writing into
    the gap inserts (`blit_copyWithin`). -/

namespace ByteBuffer

open LittleEndian List

variable {α : Type}

/-- Overwrite what stands at an offset. -/
def blit (off : Nat) (bs buf : List α) : List α :=
  buf.take off ++ (bs ++ buf.drop (off + bs.length))

variable {off : Nat} {buf : List α}

theorem length_blit {bs : List α} (h : off + bs.length ≤ buf.length) :
    (blit off bs buf).length = buf.length := by
  rw [blit, length_append, length_append, length_take, length_drop]
  omega

@[simp] theorem blit_nil (off : Nat) (buf : List α) : blit off [] buf = buf := by
  simp [blit]

/-- What is overwritten is gone, the rest stays. -/
theorem blit_append {A B C bs : List α} (hA : A.length = off) (hC : C.length = bs.length) :
    blit off bs (A ++ (C ++ B)) = A ++ (bs ++ B) := by
  have hdrop : (A ++ (C ++ B)).drop (off + bs.length) = B := by
    rw [← append_assoc]
    exact drop_left' (by rw [length_append, hA, hC])
  rw [blit, hdrop, take_left' hA]

theorem exists_front {n : Nat} (h : n ≤ buf.length) : ∃ C B, buf = C ++ B ∧ C.length = n :=
  ⟨buf.take n, buf.drop n, (take_append_drop n buf).symm, by rw [length_take]; omega⟩

/-- A buffer cut where a store of a given length goes. -/
theorem exists_cut {n : Nat} (h : off + n ≤ buf.length) :
    ∃ A C B, buf = A ++ (C ++ B) ∧ A.length = off ∧ C.length = n := by
  refine ⟨buf.take off, slice off n buf, buf.drop (off + n), ?_, ?_, length_slice h⟩
  · rw [slice, ← drop_drop, take_append_drop, take_append_drop]
  · rw [length_take]
    omega

/-- **ONE STORE AFTER ANOTHER** is one store. -/
theorem blit_blit {xs ys : List α} (h : off + xs.length + ys.length ≤ buf.length) :
    blit (off + xs.length) ys (blit off xs buf) = blit off (xs ++ ys) buf := by
  have hle : off + xs.length ≤ buf.length := by omega
  obtain ⟨A, C, D, rfl, hA, hC⟩ := exists_cut hle
  have hle' : ys.length ≤ D.length := by
    simp only [length_append] at h
    omega
  obtain ⟨F, B, rfl, hF⟩ := exists_front hle'
  have hfirst : blit off xs (A ++ (C ++ (F ++ B))) = A ++ xs ++ (F ++ B) := by
    rw [blit_append hA hC, append_assoc]
  have hboth : blit off (xs ++ ys) (A ++ (C ++ F ++ B)) = A ++ (xs ++ ys ++ B) :=
    blit_append hA (by rw [length_append, length_append, hC, hF])
  have hAxs : (A ++ xs).length = off + xs.length := by rw [length_append, hA]
  rw [hfirst, blit_append hAxs hF, ← append_assoc C, hboth]
  simp only [append_assoc]

/-- Stores one after another, as long as each is in range; where they end. -/
def stores : List (List α) → Nat → List α → Option (List α × Nat)
  | [], off, buf => some (buf, off)
  | c :: cs, off, buf =>
      if off + c.length ≤ buf.length then stores cs (off + c.length) (blit off c buf) else none

theorem stores_eq {chunks : List (List α)} (h : off ≤ buf.length) :
    stores chunks off buf = if off + chunks.flatten.length ≤ buf.length
      then some (blit off chunks.flatten buf, off + chunks.flatten.length) else none := by
  induction chunks generalizing off buf with
  | nil => simp [stores, h]
  | cons c cs ih =>
      rw [stores, flatten_cons, length_append, ← Nat.add_assoc]
      by_cases hc : off + c.length ≤ buf.length
      · have hlen := length_blit hc
        rw [if_pos hc, ih (hlen ▸ hc), hlen]
        by_cases hcs : off + c.length + cs.flatten.length ≤ buf.length
        · rw [if_pos hcs, if_pos hcs, blit_blit hcs]
        · rw [if_neg hcs, if_neg hcs]
      · rw [if_neg hc, if_neg (by omega)]

/-- `copy_within`: the elements from `src` up to `stop` are copied to `dst`. -/
def copyWithin (src stop dst : Nat) (buf : List α) : List α :=
  blit dst (slice src (stop - src) buf) buf

/-- **INSERTING**: the tail of the used part moves up and the gap is filled. -/
theorem blit_copyWithin {A B Z W new : List α} (hZ : Z.length = new.length) :
    blit A.length new (copyWithin A.length (A.length + B.length) (A.length + new.length)
      (A ++ (B ++ (Z ++ W)))) = A ++ (new ++ (B ++ W)) := by
  have hslice : slice A.length (A.length + B.length - A.length) (A ++ (B ++ (Z ++ W))) = B :=
    slice_append rfl (by omega)
  have hlen : A.length + new.length ≤ (A ++ (B ++ Z)).length := by
    simp only [length_append]
    omega
  obtain ⟨P, G, Q, hcut, hP, hG⟩ := exists_cut hlen
  have hQ : Q.length = B.length := by
    have := congrArg List.length hcut
    simp only [length_append] at this
    omega
  obtain rfl : A = P := (append_inj hcut hP.symm).1
  have hmoved : blit (A.length + new.length) B (A ++ (B ++ (Z ++ W))) = A ++ (G ++ (B ++ W)) := by
    have hbuf : A ++ (B ++ (Z ++ W)) = A ++ G ++ (Q ++ W) := by
      rw [show A ++ (B ++ (Z ++ W)) = A ++ (B ++ Z) ++ W by simp, hcut]
      simp
    rw [hbuf, blit_append (by rw [length_append, hG]) hQ, append_assoc]
  rw [copyWithin, hslice, hmoved, blit_append rfl hG]

end ByteBuffer
