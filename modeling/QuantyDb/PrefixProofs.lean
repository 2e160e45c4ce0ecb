import QuantyDb.DbModel
import QuantyDb.KeyEncodingProofs

/-! # Ranges of keys

    The rows of a table and the entries of an index are found by scanning the
    keys from a beginning up to its successor.  Such a range holds exactly the
    keys with that beginning (`inRange_iff`).  Between the keys of tuples a
    beginning is less than it seems: an escaped zero byte looks like the end of
    a text, and only the `FF` behind it tells them apart
    (`encodeKey_prefix_iff`). -/

namespace QuantyRange

open QuantyKey QuantyPage QuantyEncoding QuantyDatabase List

/-- `key_successor`: an exclusive end for the keys with a beginning, none when
    the beginning is all `FF`. -/
def keySuccessor (p : Key) : Option Key := succReversed p.bytes.reverse

/-- What a scan from a beginning to its successor visits. -/
def InRange (p k : Key) : Prop :=
  memcmp p k ≠ .gt ∧ ∀ stop, keySuccessor p = some stop → memcmp k stop = .lt

/-! ## Beginnings -/

theorem keySuccessor_snoc (q : List UInt8) (b : UInt8) :
    keySuccessor (q ++ [b] : List UInt8)
      = if b = 0xFF then keySuccessor q else some (q ++ [b + 1] : List UInt8) := by
  show succReversed (q ++ [b]).reverse = _
  rw [reverse_append, reverse_singleton, singleton_append, succReversed,
    reverse_cons, reverse_reverse]
  rfl

theorem memcmp_append_ne (q r : List UInt8) : memcmp q (q ++ r) ≠ .gt := by
  have h : memcmp (q ++ []) (q ++ r) = memcmp [] r := memcmp_append_left
  rw [append_nil] at h
  rw [h]
  cases r with
  | nil => rw [memcmp_self]; exact nofun
  | cons b r => rw [memcmp_nil_cons]; exact nofun

variable {k q r : List UInt8} {b c : UInt8}

/-- What lies between two extensions of a beginning has that beginning. -/
theorem prefix_of_between {xs ys : List UInt8} (hle : memcmp (q ++ xs) k ≠ .gt)
    (hlt : memcmp k (q ++ ys) = .lt) : q <+: k := by
  induction q generalizing k with
  | nil => exact nil_prefix
  | cons b q ih =>
      cases k with
      | nil => exact absurd memcmp_cons_nil hle
      | cons c k =>
          rw [cons_append, memcmp_cons] at hle hlt
          rcases lt_trichotomy b c with hbc | rfl | hcb
          · rw [compare_gt_iff_gt.mpr hbc] at hlt
            nomatch hlt
          · rw [compare_eq_iff_eq.mpr rfl, Ordering.eq_then] at hle hlt
            exact (prefix_cons_inj b).mpr (ih hle hlt)
          · rw [compare_gt_iff_gt.mpr hcb] at hle
            exact absurd rfl hle

theorem gt_append (xs : List UInt8) (h : memcmp q k = .gt) : memcmp (q ++ xs) k = .gt :=
  compare_gt_iff_gt.mpr (lt_of_lt_of_le (compare_gt_iff_gt.mp h)
    (compare_le_iff_le.mp (memcmp_append_ne q xs)))

/-- Where a key is not below a beginning that it shares but for the last byte,
    its own byte there is no smaller. -/
theorem next_of_le (h : memcmp (q ++ [b]) (q ++ r) ≠ .gt) : ∃ c rest, r = c :: rest ∧ b ≤ c := by
  rw [memcmp_append_left] at h
  cases r with
  | nil => exact absurd memcmp_cons_nil h
  | cons c rest =>
      refine ⟨c, rest, rfl, not_lt.mp fun hcb => h ?_⟩
      rw [memcmp_cons, compare_gt_iff_gt.mpr hcb]
      rfl

theorem next_lt_iff {d : UInt8} : memcmp (q ++ c :: r) (q ++ [d]) = .lt ↔ c < d := by
  rw [memcmp_append_left, memcmp_cons]
  rcases lt_trichotomy c d with h | rfl | h
  · rw [compare_lt_iff_lt.mpr h]
    exact iff_of_true rfl h
  · rw [compare_eq_iff_eq.mpr rfl, Ordering.eq_then]
    refine iff_of_false (fun hlt => ?_) (lt_irrefl c)
    exact not_lt_nil r (compare_lt_iff_lt.mp hlt)
  · rw [compare_gt_iff_gt.mpr h]
    exact iff_of_false nofun h.not_gt

theorem lt_succ_iff (hb : b ≠ 0xFF) : c < b + 1 ↔ c ≤ b := by
  have hlt := b.toNat_lt
  have hne : b.toNat ≠ 255 := fun h => hb (UInt8.toNat_inj.mp h)
  rw [UInt8.lt_iff_toNat_lt, UInt8.le_iff_toNat_le, UInt8.toNat_add]
  show c.toNat < (b.toNat + 1) % 256 ↔ _
  omega

/-- **A RANGE IS A BEGINNING**: the carry over the trailing `FF` bytes loses no
    key and admits none. -/
theorem inRange_iff (p k : List UInt8) : InRange p k ↔ p <+: k := by
  induction p using List.reverseRecOn generalizing k with
  | nil => exact ⟨fun _ => nil_prefix, fun _ => ⟨memcmp_append_ne [] k, nofun⟩⟩
  | append_singleton q b ih =>
      unfold InRange
      rw [keySuccessor_snoc]
      constructor
      · rintro ⟨hle, hstop⟩
        obtain ⟨r, rfl⟩ : q <+: k := by
          split at hstop
          · exact (ih k).mp ⟨fun hgt => hle (gt_append [b] hgt), hstop⟩
          · exact prefix_of_between hle (hstop _ rfl)
        -- only the byte behind the common part is left to compare
        obtain ⟨c, rest, rfl, hbc⟩ := next_of_le hle
        have hcb : c ≤ b := by
          split at hstop
          · next hff => exact hff ▸ UInt8.le_iff_toNat_le.mpr (Nat.le_of_lt_succ c.toNat_lt)
          · next hff => exact (lt_succ_iff hff).mp (next_lt_iff.mp (hstop _ rfl))
        rw [le_antisymm hcb hbc]
        exact ⟨rest, by rw [append_assoc, singleton_append]⟩
      · rintro ⟨r, rfl⟩
        refine ⟨memcmp_append_ne _ r, ?_⟩
        rw [append_assoc]
        split
        · exact ((ih _).mpr (prefix_append q _)).2
        · next hff =>
          intro stop hstop
          rw [← Option.some.inj hstop]
          exact next_lt_iff.mpr ((lt_succ_iff hff).mpr le_rfl)

/-! ## Tuples -/

theorem encodeKey_cons (v : Value) (vs : List Value) :
    (encodeKey (v :: vs)).bytes = v.encode ++ (encodeKey vs).bytes := flatMap_cons

theorem encodeKey_append (t ws : List Value) :
    (encodeKey (t ++ ws)).bytes = (encodeKey t).bytes ++ (encodeKey ws).bytes := flatMap_append

/-- What stands behind a part of a key is no escape when it is none behind the
    whole. -/
theorem ended_append (t : List Value) {r : Bytes} (hr : Ended r) :
    Ended ((encodeKey t).bytes ++ r) := by
  have ht : Ended (encodeKey t).bytes := ended_encodeKey t
  revert ht
  cases (encodeKey t).bytes with
  | nil => exact fun _ => hr
  | cons b bs => exact id

/-- **THE BEGINNING OF A TUPLE**: its key is a beginning, and what stands behind
    is no escape. -/
theorem encodeKey_prefix_iff (t u : List Value) :
    (∃ r, (encodeKey t).bytes ++ r = (encodeKey u).bytes ∧ Ended r) ↔ t <+: u := by
  constructor
  · induction t generalizing u with
    | nil => exact fun _ => nil_prefix
    | cons v t ih =>
        rintro ⟨r, hr, hended⟩
        have hv := decodeOne_encode v (ended_append t hended)
        rw [← append_assoc, ← encodeKey_cons, hr] at hv
        cases u with
        | nil =>
            obtain ⟨tag, rest, htag, -⟩ := encode_cons v
            rw [encodeKey_cons, htag] at hr
            nomatch hr
        | cons w u =>
            have hu : Ended (encodeKey u).bytes := ended_encodeKey u
            rw [encodeKey_cons, decodeOne_encode w hu] at hv
            obtain ⟨rfl, hrest⟩ := Prod.mk.inj (Except.ok.inj hv)
            exact (prefix_cons_inj w).mpr (ih u ⟨r, hrest.symm, hended⟩)
  · rintro ⟨ws, rfl⟩
    exact ⟨(encodeKey ws).bytes, (encodeKey_append t ws).symm, ended_encodeKey ws⟩

/-- **PREFIX RANGES** select the keys with a beginning, whichever of the two
    successors ends them, and of the keys of tuples the extensions of one. -/
theorem prefix_range_selects :
    (∀ p k : Key, InRange p k ↔ p.bytes <+: k.bytes)
    ∧ (∀ p, prefixSuccessor p = keySuccessor p)
    ∧ ∀ t u : List Value, (InRange (encodeKey t) (encodeKey u)
        ∧ (encodeKey u).bytes[(encodeKey t).length]? ≠ some 0xFF) ↔ t <+: u := by
  refine ⟨inRange_iff, fun _ => rfl, fun t u => ?_⟩
  -- the byte behind a beginning is the first of what is left
  have hnext : ∀ r, (encodeKey t).bytes ++ r = (encodeKey u).bytes →
      (encodeKey u).bytes[(encodeKey t).length]? = r.head? := by
    intro r hr
    rw [← hr, head?_eq_getElem?, Key.length, getElem?_append_right le_rfl, Nat.sub_self]
  rw [← encodeKey_prefix_iff]
  constructor
  · rintro ⟨hin, hbyte⟩
    obtain ⟨r, hr⟩ := (inRange_iff _ _).mp hin
    rw [hnext r hr] at hbyte
    exact ⟨r, hr, hbyte⟩
  · rintro ⟨r, hr, hended⟩
    refine ⟨(inRange_iff _ _).mpr ⟨r, hr⟩, ?_⟩
    rw [hnext r hr]
    exact hended

end QuantyRange
