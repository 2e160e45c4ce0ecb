import Mathlib

/-! # A shift register with feedback

    The register of a cyclic redundancy check, of any width and with any
    polynomial, written with its lowest bit first.  A step moves the register
    down by one and folds the polynomial in when the bit that falls out is
    set.  Steps are linear in exclusive or, so a message can be fed bit by bit
    or folded in as a word and stepped afterwards (`feedAll_eq`).  When the
    polynomial has its highest bit no step loses anything, so what a register
    held before can be told from what it holds (`feedAll_burst`). -/

namespace ShiftRegister

open List BitVec

variable {w : Nat} (poly : BitVec w)

def shift (x : BitVec w) : BitVec w := if x.getLsbD 0 then (x >>> 1) ^^^ poly else x >>> 1

/-- So many steps. -/
def shifts : Nat → BitVec w → BitVec w
  | 0, x => x
  | n + 1, x => shifts n (shift poly x)

theorem shifts_add (n m : Nat) (x : BitVec w) :
    shifts poly (n + m) x = shifts poly m (shifts poly n x) := by
  induction n generalizing x with
  | zero => rw [Nat.zero_add, shifts]
  | succ n ih => rw [Nat.succ_add, shifts, ih, shifts]

/-! ## Steps are linear -/

theorem shift_xor (x y : BitVec w) : shift poly (x ^^^ y) = shift poly x ^^^ shift poly y := by
  have hcancel : ∀ a b : BitVec w, a ^^^ b = a ^^^ poly ^^^ (b ^^^ poly) := by
    intro a b
    rw [BitVec.xor_assoc, BitVec.xor_comm b poly, ← BitVec.xor_assoc poly, BitVec.xor_self,
      zero_xor]
  simp only [shift, getLsbD_xor, ushiftRight_xor_distrib]
  cases x.getLsbD 0 <;> cases y.getLsbD 0
  · rfl
  · exact BitVec.xor_assoc ..
  · show x >>> 1 ^^^ y >>> 1 ^^^ poly = x >>> 1 ^^^ poly ^^^ y >>> 1
    rw [BitVec.xor_assoc, BitVec.xor_comm _ poly, BitVec.xor_assoc]
  · exact hcancel _ _

theorem shifts_xor (n : Nat) (x y : BitVec w) :
    shifts poly n (x ^^^ y) = shifts poly n x ^^^ shifts poly n y := by
  induction n generalizing x y with
  | zero => rfl
  | succ n ih => rw [shifts, shift_xor, ih, shifts, shifts]

theorem shifts_zero (n : Nat) : shifts poly n 0#w = 0#w := by
  have h := shifts_xor poly n 0#w 0#w
  rwa [BitVec.xor_self, BitVec.xor_self] at h

/-- Bits that are clear fall out without an effect. -/
theorem shifts_of_clear {n : Nat} {x : BitVec w} (h : ∀ i < n, x.getLsbD i = false) :
    shifts poly n x = x >>> n := by
  induction n generalizing x with
  | zero => rw [shifts, ushiftRight_zero]
  | succ n ih =>
      have hshift : shift poly x = x >>> 1 := by
        rw [shift, h 0 (Nat.succ_pos n)]
        rfl
      rw [shifts, hshift, ih, Nat.add_comm, shiftRight_add]
      intro i hi
      rw [getLsbD_ushiftRight]
      exact h (1 + i) (by omega)

/-! ## No step loses anything -/

section Injective

variable {poly} (hpoly : poly.msb = true)

include hpoly

/-- The highest bit tells whether the polynomial was folded in. -/
theorem shift_injective : Function.Injective (shift poly) := by
  have hwide : 0 < w := Nat.pos_of_ne_zero fun hw => by
    subst hw
    rw [Subsingleton.elim poly 0#0] at hpoly
    exact absurd hpoly (by decide)
  have hzero : ∀ x, shift poly x = 0#w → x = 0#w := by
    intro x hx
    have hlow : x.getLsbD 0 = false := by
      by_contra hset
      rw [shift, if_pos (by simpa using hset)] at hx
      have hmsb := congrArg BitVec.msb hx
      rw [msb_xor, hpoly, msb_ushiftRight, msb_zero] at hmsb
      simp at hmsb
    rw [shift, hlow] at hx
    refine eq_of_getLsbD_eq fun i hi => ?_
    rw [getLsbD_zero]
    cases i with
    | zero => exact hlow
    | succ i =>
        have hbit := congrArg (BitVec.getLsbD · i) hx
        simpa [getLsbD_ushiftRight, Nat.add_comm] using hbit
  intro x y hxy
  have hdiff := hzero (x ^^^ y) (by rw [shift_xor, hxy, BitVec.xor_self])
  exact BitVec.xor_eq_zero_iff.mp hdiff

theorem shifts_injective (n : Nat) : Function.Injective (shifts poly n) := by
  induction n with
  | zero => exact Function.injective_id
  | succ n ih => exact ih.comp (shift_injective hpoly)

end Injective

/-! ## Feeding a message -/

/-- A bit comes in at the low end. -/
def feed (x : BitVec w) (bit : Bool) : BitVec w := shift poly (x ^^^ (BitVec.ofBool bit).setWidth w)

def feedAll (x : BitVec w) (bits : List Bool) : BitVec w := bits.foldl (feed poly) x

theorem feedAll_append (x : BitVec w) (a b : List Bool) :
    feedAll poly x (a ++ b) = feedAll poly (feedAll poly x a) b := foldl_append

/-- Bits as a word, the first at the low end. -/
def word : List Bool → BitVec w
  | [] => 0#w
  | bit :: bits => (BitVec.ofBool bit).setWidth w ^^^ (word bits <<< 1)

variable {a b bits : List Bool}

theorem getLsbD_word {i : Nat} (hi : i < w) :
    (word bits : BitVec w).getLsbD i = bits.getD i false := by
  induction bits generalizing i with
  | nil => rw [word, getLsbD_zero, getD_nil]
  | cons bit bits ih =>
      rw [word, getLsbD_xor, getLsbD_shiftLeft, getLsbD_setWidth]
      cases i with
      | zero => simp [hi]
      | succ i => simp [hi, ih (Nat.lt_of_succ_lt hi)]

/-- **A WORD AT ONCE**: as many steps as there are bits, with the bits folded in
    before the first. -/
theorem feedAll_eq (h : bits.length ≤ w) (x : BitVec w) :
    feedAll poly x bits = shifts poly bits.length (x ^^^ word bits) := by
  induction bits generalizing x with
  | nil => rw [word, xor_zero]; rfl
  | cons bit bits ih =>
      rw [length_cons] at h
      -- the bits that are still to come are moved down by the step
      have hdown : shift poly ((word bits : BitVec w) <<< 1) = word bits := by
        have hclear : ((word bits : BitVec w) <<< 1).getLsbD 0 = false := by simp
        rw [shift, hclear]
        refine eq_of_getLsbD_eq fun i hi => ?_
        show (((word bits : BitVec w) <<< 1) >>> 1).getLsbD i = _
        rw [getLsbD_ushiftRight, getLsbD_shiftLeft]
        by_cases hlast : 1 + i < w
        · simp [hlast]
        · rw [getLsbD_word hi, getD_eq_default _ _ (by omega)]
          simp [hlast]
      show feedAll poly (feed poly x bit) bits = _
      rw [ih (by omega), length_cons, shifts, word, ← BitVec.xor_assoc, shift_xor, hdown]
      rfl

theorem word_injective (hlen : a.length = b.length) (h : a.length ≤ w)
    (hword : (word a : BitVec w) = word b) : a = b := by
  refine ext_getElem hlen fun i hi hi' => ?_
  have hbit := congrArg (BitVec.getLsbD · i) hword
  simp only [getLsbD_word (hi.trans_le h)] at hbit
  rwa [getD_eq_getElem _ _ hi, getD_eq_getElem _ _ hi'] at hbit

variable {poly} in
/-- **A BURST SHOWS**: messages that differ in no more bits in a row than the
    register is wide leave it different. -/
theorem feedAll_burst (hpoly : poly.msb = true) (hlen : a.length = b.length) (hshort : a.length ≤ w)
    (hne : a ≠ b) (before after : List Bool) (x : BitVec w) :
    feedAll poly x (before ++ a ++ after) ≠ feedAll poly x (before ++ b ++ after) := by
  have hafter : ∀ y z : BitVec w, feedAll poly y after = feedAll poly z after → y = z := by
    induction after with
    | nil => exact fun _ _ h => h
    | cons bit after ih =>
        intro y z h
        exact (xor_left_inj _).mp (shift_injective hpoly (ih _ _ h))
  intro h
  rw [feedAll_append, feedAll_append, feedAll_append, feedAll_append] at h
  have hmid := hafter _ _ h
  rw [feedAll_eq poly hshort (feedAll poly x before),
    feedAll_eq poly (hlen ▸ hshort) (feedAll poly x before), ← hlen] at hmid
  have hword := (xor_right_inj _).mp (shifts_injective hpoly _ hmid)
  exact hne (word_injective hlen hshort hword)

end ShiftRegister
