import Mathlib

/-! # Letters and the seats they are for

    A guest takes a free seat under a name, asks by posting a letter that
    carries its seat and its name, and waits.  A letter comes back to its seat
    or gets lost on the way; a guest may leave at any time, and its seat is
    given to others.

    Nothing stops a letter from coming back late.  What keeps it from a stranger
    is the name: as long as no name is given twice, a letter that names the
    guest in its seat is the answer this guest waits for, and the only one. -/

namespace Mailroom

open List Multiset Function

variable {Seat Name : Type*} [DecidableEq Seat]

/-- Who sits where and whether they wait, and the letters on their way. -/
structure Room (Seat Name : Type*) where
  guest : Seat → Option (Name × Bool)
  letters : Multiset (Seat × Name)

/-- What can happen, and the names that are given by it. -/
inductive Step : Room Seat Name → List Name → Room Seat Name → Prop
  | enter {r : Room Seat Name} {p : Seat} (x : Name) (hfree : r.guest p = none) :
      Step r [x] { r with guest := update r.guest p (some (x, false)) }
  | ask {r : Room Seat Name} {p : Seat} {x : Name} (hguest : r.guest p = some (x, false)) :
      Step r [] ⟨update r.guest p (some (x, true)), (p, x) ::ₘ r.letters⟩
  | receive {r : Room Seat Name} {p : Seat} {x : Name} {waits : Bool}
      {rest : Multiset (Seat × Name)}
      (hletter : r.letters = (p, x) ::ₘ rest) (hguest : r.guest p = some (x, waits)) :
      Step r [] ⟨update r.guest p (some (x, false)), rest⟩
  | lose {r : Room Seat Name} (rest : Multiset (Seat × Name)) (hless : rest ≤ r.letters) :
      Step r [] { r with letters := rest }
  | leave {r : Room Seat Name} (p : Seat) :
      Step r [] { r with guest := update r.guest p none }

/-- Any number of steps, with the names given on the way, the last one first. -/
inductive Steps : Room Seat Name → List Name → Room Seat Name → Prop
  | refl (r : Room Seat Name) : Steps r [] r
  | tail {r s t : Room Seat Name} {given new : List Name} (h : Steps r given s)
      (hstep : Step s new t) :
      Steps r (new ++ given) t

variable {r s : Room Seat Name} {given new : List Name} {p : Seat} {x : Name}

theorem Steps.single (h : Step r new s) : Steps r new s := by
  have := Steps.tail (Steps.refl r) h
  rwa [append_nil] at this

theorem Steps.trans {t : Room Seat Name} {a b : List Name} (h₁ : Steps r a s) (h₂ : Steps s b t) :
    Steps r (b ++ a) t := by
  induction h₂ with
  | refl => exact h₁
  | tail _ hstep ih =>
      rw [append_assoc]
      exact .tail ih hstep

/-- Who is in a seat after one seat was changed. -/
theorem update_cases {f : Seat → Option (Name × Bool)} {q : Seat} {v : Option (Name × Bool)}
    {waits : Bool} (h : update f p v q = some (x, waits)) :
    (q = p ∧ v = some (x, waits)) ∨ (q ≠ p ∧ f q = some (x, waits)) := by
  by_cases hq : q = p
  · subst hq
    rw [update_self] at h
    exact .inl ⟨rfl, h⟩
  · rw [update_of_ne hq] at h
    exact .inr ⟨hq, h⟩

variable [DecidableEq Name]

/-- Every guest and every letter has a name that was given; a name sits in one
    seat, its letters carry that seat, and one that waits has one letter out at
    most, one that does not has none. -/
structure Room.Orderly (r : Room Seat Name) (given : List Name) : Prop where
  guest_known : ∀ {p x waits}, r.guest p = some (x, waits) → x ∈ given
  letter_known : ∀ {p x}, (p, x) ∈ r.letters → x ∈ given
  one_seat : ∀ {p q x waits waits'}, r.guest p = some (x, waits) → r.guest q = some (x, waits') →
    p = q
  own : ∀ {p q x waits}, r.guest p = some (x, waits) → (q, x) ∈ r.letters → q = p
  one_letter : ∀ {p x waits}, r.guest p = some (x, waits) → r.letters.count (p, x) ≤ waits.toNat

theorem Room.Orderly.empty : (⟨fun _ => none, 0⟩ : Room Seat Name).Orderly [] where
  guest_known h := nomatch h
  letter_known h := absurd h (notMem_zero _)
  one_seat h := nomatch h
  own h := nomatch h
  one_letter h := nomatch h

/-- A guest that stays where it is, with a letter more or less to its account. -/
theorem Room.Orderly.settle (h : r.Orderly given) {before now : Bool}
    {letters : Multiset (Seat × Name)} (hguest : r.guest p = some (x, before))
    (hsame : ∀ l, l ≠ (p, x) → letters.count l ≤ r.letters.count l)
    (hcount : letters.count (p, x) ≤ now.toNat) :
    (⟨update r.guest p (some (x, now)), letters⟩ : Room Seat Name).Orderly given := by
  have hseat : ∀ {q y waits}, update r.guest p (some (x, now)) q = some (y, waits) →
      ∃ waits', r.guest q = some (y, waits') := by
    intro q y waits hq
    rcases update_cases hq with ⟨rfl, hv⟩ | ⟨-, hv⟩
    · obtain ⟨rfl, -⟩ := Prod.mk.inj (Option.some.inj hv)
      exact ⟨before, hguest⟩
    · exact ⟨waits, hv⟩
  have hletter : ∀ {q y}, (q, y) ∈ letters → (q, y) = (p, x) ∨ (q, y) ∈ r.letters := by
    intro q y hmem
    by_cases heq : (q, y) = (p, x)
    · exact .inl heq
    · have hpos := count_pos.mpr hmem
      have hle := hsame _ heq
      exact .inr (count_pos.mp (by omega))
  refine ⟨?_, ?_, ?_, ?_, ?_⟩
  · intro q y waits hq
    obtain ⟨_, hq⟩ := hseat hq
    exact h.guest_known hq
  · intro q y hmem
    rcases hletter hmem with heq | hold
    · obtain ⟨-, rfl⟩ := Prod.mk.inj heq
      exact h.guest_known hguest
    · exact h.letter_known hold
  · intro q q' y waits waits' hq hq'
    obtain ⟨_, hq⟩ := hseat hq
    obtain ⟨_, hq'⟩ := hseat hq'
    exact h.one_seat hq hq'
  · intro q q' y waits hq hmem
    obtain ⟨_, hold⟩ := hseat hq
    rcases hletter hmem with heq | hmem
    · obtain ⟨rfl, rfl⟩ := Prod.mk.inj heq
      exact h.one_seat hguest hold
    · exact h.own hold hmem
  · intro q y waits hq
    rcases update_cases hq with ⟨rfl, hv⟩ | ⟨hne, hv⟩
    · obtain ⟨rfl, rfl⟩ := Prod.mk.inj (Option.some.inj hv)
      exact hcount
    · refine (hsame (q, y) (fun heq => hne (Prod.mk.inj heq).1)).trans (h.one_letter hv)

/-- A step keeps order, if the name it gives is new. -/
theorem Step.orderly (hstep : Step r new s) (h : r.Orderly given) (hnew : (new ++ given).Nodup) :
    s.Orderly (new ++ given) := by
  cases hstep with
  | @enter p x hfree =>
      have hfresh : x ∉ given := (nodup_cons.mp hnew).1
      have hold : ∀ {q y waits}, update r.guest p (some (x, false)) q = some (y, waits) →
          (q = p ∧ y = x ∧ waits = false) ∨ (r.guest q = some (y, waits) ∧ y ∈ given) := by
        intro q y waits hq
        rcases update_cases hq with ⟨rfl, hv⟩ | ⟨-, hv⟩
        · obtain ⟨rfl, rfl⟩ := Prod.mk.inj (Option.some.inj hv)
          exact .inl ⟨rfl, rfl, rfl⟩
        · exact .inr ⟨hv, h.guest_known hv⟩
      refine ⟨?_, ?_, ?_, ?_, ?_⟩
      · intro q y waits hq
        rcases hold hq with ⟨-, rfl, -⟩ | ⟨-, hmem⟩
        · exact .head _
        · exact .tail _ hmem
      · intro q y hmem
        exact .tail _ (h.letter_known hmem)
      · intro q q' y waits waits' hq hq'
        rcases hold hq with ⟨rfl, rfl, -⟩ | ⟨hq, hmem⟩ <;>
          rcases hold hq' with ⟨rfl, hy, -⟩ | ⟨hq', hmem'⟩
        · rfl
        · exact absurd hmem' hfresh
        · exact absurd (hy ▸ hmem) hfresh
        · exact h.one_seat hq hq'
      · intro q q' y waits hq hmem
        rcases hold hq with ⟨-, rfl, -⟩ | ⟨hq, -⟩
        · exact absurd (h.letter_known hmem) hfresh
        · exact h.own hq hmem
      · intro q y waits hq
        rcases hold hq with ⟨-, rfl, -⟩ | ⟨hq, -⟩
        · rw [count_eq_zero.mpr (fun hmem => hfresh (h.letter_known hmem))]
          exact Nat.zero_le _
        · exact h.one_letter hq
  | @ask p x hguest =>
      refine h.settle hguest (fun l hl => ?_) ?_
      · rw [Multiset.count_cons_of_ne hl]
      · rw [Multiset.count_cons_self, Bool.toNat_true]
        have := h.one_letter hguest
        rw [Bool.toNat_false] at this
        omega
  | @receive p x waits rest hletter hguest =>
      refine h.settle hguest (fun l hl => ?_) ?_
      · rw [hletter, Multiset.count_cons_of_ne hl]
      · have hone := h.one_letter hguest
        rw [hletter, Multiset.count_cons_self] at hone
        have := waits.toNat_le
        rw [Bool.toNat_false]
        omega
  | lose rest hless =>
      refine ⟨h.guest_known, fun hmem => ?_, h.one_seat, fun hq hmem => ?_, fun hq => ?_⟩
      · exact h.letter_known (mem_of_le hless hmem)
      · exact h.own hq (mem_of_le hless hmem)
      · exact (count_le_of_le _ hless).trans (h.one_letter hq)
  | leave p =>
      have hold : ∀ {q y waits}, update r.guest p none q = some (y, waits) →
          r.guest q = some (y, waits) := by
        intro q y waits hq
        rcases update_cases hq with ⟨-, hv⟩ | ⟨-, hv⟩
        · nomatch hv
        · exact hv
      exact ⟨fun hq => h.guest_known (hold hq), h.letter_known,
        fun hq hq' => h.one_seat (hold hq) (hold hq'), fun hq => h.own (hold hq),
        fun hq => h.one_letter (hold hq)⟩

/-- **ORDER IS KEPT** as long as no name is given twice. -/
theorem Steps.orderly (hsteps : Steps r new s) (h : r.Orderly given) (hnew : (new ++ given).Nodup) :
    s.Orderly (new ++ given) := by
  induction hsteps with
  | refl => exact h
  | tail _ hstep ih =>
      rw [append_assoc] at hnew ⊢
      exact hstep.orderly (ih (nodup_append.mp hnew).2.1) hnew

/-- A letter that comes back to a guest in an orderly room finds it in the seat
    the letter carries, and waiting. -/
theorem Room.Orderly.awaited (h : r.Orderly given) {q : Seat} {waits : Bool}
    (hletter : (q, x) ∈ r.letters) (hguest : r.guest p = some (x, waits)) :
    q = p ∧ waits = true := by
  have hq : q = p := h.own hguest hletter
  subst hq
  have hone := h.one_letter hguest
  have hpos := count_pos.mpr hletter
  refine ⟨rfl, ?_⟩
  cases waits with
  | true => rfl
  | false =>
      rw [Bool.toNat_false] at hone
      omega

end Mailroom
