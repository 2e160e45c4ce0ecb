import Mathlib

/-! # The fan of a branch

    A branch of a search tree has one child more than it has separators: a
    first child, and entries that each pair a separator with the child from
    that separator on.  The operations here address children by their
    conceptual index: `0` is the first child, `i + 1` the child of entry `i`.

    `slots` lays a fan out as one list, a slot for every child, with the
    separator that opens it.  Every operation is a cut of that list, and the
    lemmas of this file say which. -/

namespace Fan

open List

variable {K α β : Type} [LinearOrder K]

/-- How many separators are not above `key`: the index of the child that
    covers it. -/
def rank (key : K) (es : List (K × α)) : Nat :=
  (es.takeWhile (fun e => decide (e.1 ≤ key))).length

omit [LinearOrder K] in
/-- The child at a conceptual index. -/
def child (f : α) (es : List (K × α)) : Nat → α
  | 0 => f
  | i + 1 => ((es[i]?).map Prod.snd).getD f

omit [LinearOrder K] in
/-- Replace the child at a conceptual index. -/
def setChild (f : α) (es : List (K × α)) : Nat → α → α × List (K × α)
  | 0, x => (x, es)
  | i + 1, x => (f, es.modify i (fun e => (e.1, x)))

omit [LinearOrder K] in
/-- Every child with the separator that opens it; nothing opens the first. -/
def slots (f : α) (es : List (K × α)) : List (Option K × α) :=
  (none, f) :: es.map (fun e => (some e.1, e.2))

/-! ## Ranks -/

theorem rank_le_length (key : K) (es : List (K × α)) : rank key es ≤ es.length :=
  takeWhile_prefix _ |>.length_le

variable {es : List (K × α)} {i : Nat} {key : K} {e : K × α} {P : α → Prop} {f : α}

/-- The separators up to the rank are not above the key. -/
theorem le_of_mem_take_rank (h : e ∈ es.take (rank key es)) : e.1 ≤ key := by
  have htake : es.take (rank key es) = es.takeWhile (fun e => decide (e.1 ≤ key)) :=
    (prefix_iff_eq_take.mp <| takeWhile_prefix _).symm
  rw [htake] at h
  simpa using mem_takeWhile_imp h

/-- The separator right after the rank is above the key. -/
theorem lt_of_drop_rank {rest : List (K × α)} (h : es.drop (rank key es) = e :: rest) :
    key < e.1 := by
  induction es with
  | nil => simp at h
  | cons d es ih =>
      by_cases hd : d.1 ≤ key
      · have hr : rank key (d :: es) = rank key es + 1 := by
          simp [rank, hd]
        rw [hr] at h
        exact ih (by simpa using h)
      · have hr : rank key (d :: es) = 0 := by
          simp [rank, hd]
        rw [hr] at h
        obtain ⟨rfl, -⟩ : d = e ∧ es = rest := by simpa using h
        exact not_le.mp hd

/-! ## The operations as cuts of the slots -/

section Cuts

omit [LinearOrder K]

/-- The entry at an index splits the entries around it. -/
theorem entry_cut (es : List (K × α)) {j : Nat} (h : j < es.length) :
    ∃ e, es[j]? = some e ∧ es = es.take j ++ e :: es.drop (j + 1)
      ∧ (es.take j).length = j := by
  refine ⟨es[j], getElem?_eq_getElem h, ?_, ?_⟩
  · rw [← drop_eq_getElem_cons h, take_append_drop]
  · rw [length_take, Nat.min_eq_left (Nat.le_of_lt h)]

theorem insertIdx_append (A B : List α) (x : α) (n : Nat) :
    (A ++ B).insertIdx (A.length + n) x = A ++ B.insertIdx n x := by
  induction A with
  | nil => simp
  | cons a A ih =>
      rw [length_cons, Nat.add_right_comm, cons_append, insertIdx_succ_cons,
        ih, cons_append]

theorem slots_append (f : α) (xs ys : List (K × α)) :
    slots f (xs ++ ys) = slots f xs ++ ys.map (fun e => (some e.1, e.2)) := by
  simp [slots]

/-- What holds of every child holds of the child at an index. -/
theorem child_of_forall (hf : P f) (hes : ∀ e ∈ es, P e.2) (i : Nat) : P (child f es i) := by
  cases i with
  | zero => exact hf
  | succ j =>
      show P (((es[j]?).map Prod.snd).getD f)
      cases h : es[j]? with
      | none => exact hf
      | some e => exact hes e (mem_of_getElem? h)

/-- The children from an index on. -/
theorem drop_children (f : α) (es : List (K × α)) (h : i ≤ es.length) :
    (f :: es.map Prod.snd).drop i = child f es i :: (es.drop i).map Prod.snd := by
  cases i with
  | zero => rfl
  | succ j =>
      have hj : j < es.length := h
      rw [drop_succ_cons, ← map_drop, drop_eq_getElem_cons hj, map_cons, child,
        getElem?_eq_getElem hj]
      rfl

/-- What holds of every child and of the one that replaces one of them. -/
theorem setChild_forall {x : α} (hf : P f) (hes : ∀ e ∈ es, P e.2) (hx : P x) (i : Nat) :
    P (setChild f es i x).1 ∧ ∀ e ∈ (setChild f es i x).2, P e.2 := by
  cases i with
  | zero => exact ⟨hx, hes⟩
  | succ j =>
      refine ⟨hf, fun e he => ?_⟩
      obtain ⟨k, hk⟩ := mem_iff_getElem?.mp he
      have hk' : (es.modify j (fun e => (e.1, x)))[k]? = some e := hk
      rw [getElem?_modify] at hk'
      cases hek : es[k]? with
      | none => rw [hek] at hk'; nomatch hk'
      | some e' =>
          rw [hek] at hk'
          by_cases hjk : j = k
          · obtain rfl : (e'.1, x) = e := by simpa [hjk] using hk'
            exact hx
          · obtain rfl : e' = e := by simpa [hjk] using hk'
            exact hes e' (mem_of_getElem? hek)

/-- A function on the child of an entry, written by recursion on the entries. -/
theorem at_child {g : α → β} {gAt : List (K × α) → Nat → β}
    (hzero : ∀ k x es, gAt ((k, x) :: es) 0 = g x)
    (hsucc : ∀ k x es i, gAt ((k, x) :: es) (i + 1) = gAt es i) (f : α) (es : List (K × α))
    (h : i < es.length) : gAt es i = g (child f es (i + 1)) := by
  induction es generalizing i with
  | nil => exact absurd h (by simp)
  | cons e es ih =>
      obtain ⟨k, x⟩ := e
      cases i with
      | zero => exact hzero k x es
      | succ j =>
          rw [hsucc, ih (by simpa using h)]
          rfl

/-- The slots of the entries of a fan. -/
abbrev entrySlots (es : List (K × α)) : List (Option K × α) :=
  es.map (fun e => (some e.1, e.2))

/-- The slots around one child, and what each operation on that child does to
    them: replacing it, adding a neighbour after it, merging its neighbour
    into it, dropping it. -/
structure Cut (f : α) (es : List (K × α)) (i : Nat) (pre : List (Option K × α))
    (s : Option K) : Prop where
  eq : slots f es = pre ++ (s, child f es i) :: entrySlots (es.drop i)
  keys : ∀ p ∈ pre ++ [(s, child f es i)], ∀ k, p.1 = some k → ∃ e ∈ es.take i, e.1 = k
  set : ∀ x, slots (setChild f es i x).1 (setChild f es i x).2
    = pre ++ (s, x) :: entrySlots (es.drop i)
  insert : ∀ x k r, slots (setChild f es i x).1 ((setChild f es i x).2.insertIdx i (k, r))
    = pre ++ (s, x) :: (some k, r) :: entrySlots (es.drop i)
  merge : ∀ x, slots (setChild f es i x).1 ((setChild f es i x).2.eraseIdx i)
    = pre ++ (s, x) :: entrySlots (es.drop (i + 1))
  drop : ∀ j, i = j + 1 → slots f (es.eraseIdx j) = pre ++ entrySlots (es.drop i)
  first : i = 0 → pre = [] ∧ s = none
  opened : s = none → pre = []

/-- **THE CUT**: every index that names a child has one. -/
theorem exists_cut (f : α) (es : List (K × α)) (h : i ≤ es.length) : ∃ pre s, Cut f es i pre s := by
  cases i with
  | zero =>
      refine ⟨[], none, rfl, ?_, fun x => rfl, fun x k r => rfl, fun x => ?_, ?_,
        fun _ => ⟨rfl, rfl⟩, fun _ => rfl⟩
      · intro p hp k hk
        obtain rfl : p = (none, f) := by simpa [child] using hp
        nomatch hk
      · cases es <;> rfl
      · intro j hj
        nomatch hj
  | succ j =>
      -- the child of entry `j`: cut the entries there
      have hj : j < es.length := h
      obtain ⟨e, he, hcut, hlen⟩ := entry_cut es hj
      have hmod : ∀ x, es.modify j (fun e => (e.1, x))
          = es.take j ++ (e.1, x) :: es.drop (j + 1) := by
        intro x
        rw [modify_eq_set_getElem?, he]
        show es.set j (e.1, x) = _
        rw [set_eq_take_append_cons_drop, if_pos hj]
      have hchild : child f es (j + 1) = e.2 := by
        show ((es[j]?).map Prod.snd).getD f = e.2
        rw [he]; rfl
      refine ⟨slots f (es.take j), some e.1, ?_, ?_, ?_, ?_, ?_, ?_,
        nofun, nofun⟩
      · rw [hchild]
        conv_lhs => rw [hcut, slots_append]
        rfl
      · intro p hp k hk
        have htake : es.take (j + 1) = es.take j ++ [e] := by
          rw [take_add_one, he]; rfl
        rw [htake]
        simp only [slots, cons_append, mem_cons, mem_append, mem_map,
          not_mem_nil, or_false] at hp
        rcases hp with rfl | ⟨e', he', rfl⟩ | rfl
        · nomatch hk
        · cases hk
          exact ⟨e', by simp [he'], rfl⟩
        · cases hk
          exact ⟨e, by simp, rfl⟩
      · intro x
        show slots f (es.modify j (fun e => (e.1, x))) = _
        rw [hmod x, slots_append]
        rfl
      · intro x k r
        show slots f ((es.modify j (fun e => (e.1, x))).insertIdx (j + 1) (k, r)) = _
        have hins := insertIdx_append (es.take j) ((e.1, x) :: es.drop (j + 1)) (k, r) 1
        rw [hlen] at hins
        rw [hmod x, hins, slots_append]
        rfl
      · intro x
        show slots f ((es.modify j (fun e => (e.1, x))).eraseIdx (j + 1)) = _
        have hdrop : (es.take j ++ (e.1, x) :: es.drop (j + 1)).eraseIdx (j + 1)
            = es.take j ++ (e.1, x) :: (es.drop (j + 1)).eraseIdx 0 := by
          rw [eraseIdx_append_of_length_le (by rw [hlen]; omega), hlen,
            Nat.add_sub_cancel_left]
          rfl
        rw [hmod x, hdrop, slots_append, eraseIdx_zero, tail_drop]
        rfl
      · intro j' hj'
        obtain rfl : j = j' := Nat.succ.inj hj'
        rw [eraseIdx_eq_take_drop_succ, slots_append]

/-- Putting back the child that is there changes nothing. -/
theorem setChild_self (f : α) (es : List (K × α)) (i : Nat) :
    setChild f es i (child f es i) = (f, es) := by
  cases i with
  | zero => rfl
  | succ j =>
      refine Prod.ext rfl ?_
      show es.modify j (fun e => (e.1, ((es[j]?).map Prod.snd).getD f)) = es
      refine ext_getElem? fun k => ?_
      rw [getElem?_modify]
      split
      · next hk => subst hk; cases es[j]? <;> rfl
      · cases es[k]? <;> rfl

/-- Replacing a child leaves the separators. -/
theorem keys_setChild (f : α) (es : List (K × α)) (i : Nat) (x : α) :
    (setChild f es i x).2.map Prod.fst = es.map Prod.fst := by
  cases i with
  | zero => rfl
  | succ j =>
      show (es.modify j (fun e => (e.1, x))).map Prod.fst = es.map Prod.fst
      refine ext_getElem? fun k => ?_
      rw [getElem?_map, getElem?_modify, getElem?_map]
      split <;> cases es[k]? <;> rfl

end Cuts

/-! ## Relabelling the children

    The same fan seen with other labels for its children: a page id, or the
    subtree it leads to. -/

section Relabel

variable (g : α → β)

@[simp] theorem rank_map (key : K) (es : List (K × α)) :
    rank key (es.map (Prod.map id g)) = rank key es := by
  rw [rank, rank, takeWhile_map, length_map]
  rfl

omit [LinearOrder K]

@[simp] theorem child_map (f : α) (es : List (K × α)) (i : Nat) :
    child (g f) (es.map (Prod.map id g)) i = g (child f es i) := by
  cases i with
  | zero => rfl
  | succ j => cases h : es[j]? <;> simp [child, h]

theorem setChild_map (f : α) (es : List (K × α)) (i : Nat) (x : α) :
    setChild (g f) (es.map (Prod.map id g)) i (g x)
      = (g (setChild f es i x).1, (setChild f es i x).2.map (Prod.map id g)) := by
  cases i with
  | zero => rfl
  | succ j =>
      refine Prod.ext rfl ?_
      show (es.map (Prod.map id g)).modify j (fun e => (e.1, g x))
        = (es.modify j (fun e => (e.1, x))).map (Prod.map id g)
      rw [modify_eq_set_getElem?, modify_eq_set_getElem?, getElem?_map]
      cases es[j]? with
      | none => rfl
      | some e => simp [map_set]

end Relabel

end Fan
