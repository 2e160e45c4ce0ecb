import Mathlib

/-! # Sorted association lists

    The finite maps a search tree stands for, written as the list of their
    bindings in key order.  The three operations are total functions on lists;
    on strictly sorted lists they are lookup, insert-or-replace and delete.

    The lemmas that carry a search tree are the ones about a list cut in three,
    `A ++ M ++ B`, when every key of `A` is below `k` and every key of `B` is
    above it: then `k` is a matter of `M` alone. -/

namespace AssocList

open List

variable {K V : Type} [LinearOrder K]

/-- Strictly increasing keys. -/
def Sorted (l : List (K × V)) : Prop := l.Pairwise (fun a b => a.1 < b.1)

/-- The binding of `k`. -/
def get (k : K) : List (K × V) → Option V
  | [] => none
  | (k', v) :: rest => if k' = k then some v else get k rest

/-- Insert or replace. -/
def put (k : K) (v : V) : List (K × V) → List (K × V)
  | [] => [(k, v)]
  | (k', v') :: rest =>
      if k' < k then (k', v') :: put k v rest
      else if k' = k then (k, v) :: rest
      else (k, v) :: (k', v') :: rest

/-- Delete. -/
def del (k : K) (l : List (K × V)) : List (K × V) := l.filter (fun e => e.1 ≠ k)

theorem get_append (k : K) (A B : List (K × V)) :
    get k (A ++ B) = (get k A).or (get k B) := by
  induction A with
  | nil => simp [get]
  | cons e A ih =>
      obtain ⟨k', v⟩ := e
      rw [cons_append]
      simp only [get]
      by_cases h : k' = k
      · rw [if_pos h, if_pos h]; rfl
      · rw [if_neg h, if_neg h]; exact ih

variable {k : K} {A B l : List (K × V)} {v : V}

/-- A key that no binding carries has no binding. -/
theorem get_eq_none (h : ∀ e ∈ l, e.1 ≠ k) : get k l = none := by
  induction l with
  | nil => rfl
  | cons e l ih =>
      obtain ⟨k', v⟩ := e
      have hk : k' ≠ k := h (k', v) (by simp)
      simp only [get]
      rw [if_neg hk]
      exact ih (fun e he => h e (by simp [he]))

/-- A binding that is found is in the list. -/
theorem mem_of_get (h : get k l = some v) : (k, v) ∈ l := by
  induction l with
  | nil => nomatch h
  | cons e l ih =>
      obtain ⟨k', v'⟩ := e
      simp only [get] at h
      by_cases hk : k' = k
      · rw [if_pos hk] at h
        cases h
        subst hk
        exact .head _ ..
      · rw [if_neg hk] at h
        exact .tail _ (ih h)

/-- In a sorted list every binding is the one that is found. -/
theorem get_of_mem (hs : Sorted l) (h : (k, v) ∈ l) : get k l = some v := by
  induction l with
  | nil => nomatch h
  | cons e l ih =>
      obtain ⟨k', v'⟩ := e
      have hs' := pairwise_cons.mp hs
      simp only [get]
      rcases mem_cons.mp h with heq | hmem
      · cases heq
        rw [if_pos rfl]
      · have hlt : k' < k := hs'.1 (k, v) hmem
        rw [if_neg (ne_of_lt hlt)]
        exact ih hs'.2 hmem

/-- A key is bound exactly when some binding carries it. -/
theorem get_isSome_iff : (get k l).isSome = true ↔ ∃ e ∈ l, e.1 = k := by
  induction l with
  | nil => simp [get]
  | cons d l ih =>
      obtain ⟨k', v'⟩ := d
      simp only [get]
      by_cases hd : k' = k
      · rw [if_pos hd]
        exact ⟨fun _ => ⟨(k', v'), (.head _) .., hd⟩, fun _ => rfl⟩
      · rw [if_neg hd, ih]
        constructor
        · rintro ⟨e, he, hk⟩
          exact ⟨e, .tail _ he, hk⟩
        · rintro ⟨e, he, hk⟩
          rcases mem_cons.mp he with heq | hmem
          · subst heq
            exact absurd hk hd
          · exact ⟨e, hmem, hk⟩

/-- Below `k` nothing changes and the rest is put into. -/
theorem put_append_left (v : V) (B : List (K × V)) (hA : ∀ e ∈ A, e.1 < k) :
    put k v (A ++ B) = A ++ put k v B := by
  induction A with
  | nil => rfl
  | cons e A ih =>
      obtain ⟨k', v'⟩ := e
      have hk : k' < k := hA (k', v') (by simp)
      rw [cons_append]
      simp only [put]
      rw [if_pos hk, ih (fun e he => hA e (by simp [he]))]
      rfl

/-- Above `k` nothing changes. -/
theorem put_append_right (v : V) (M : List (K × V)) (hB : ∀ e ∈ B, k < e.1) :
    put k v (M ++ B) = put k v M ++ B := by
  induction M with
  | nil =>
      cases B with
      | nil => rfl
      | cons e B =>
          obtain ⟨k', v'⟩ := e
          have hk : k < k' := hB (k', v') (by simp)
          rw [nil_append]
          simp only [put]
          rw [if_neg (not_lt_of_gt hk), if_neg (ne_of_gt hk)]
          rfl
  | cons e M ih =>
      obtain ⟨k', v'⟩ := e
      rw [cons_append]
      simp only [put]
      by_cases h1 : k' < k
      · rw [if_pos h1, if_pos h1, ih]; rfl
      · rw [if_neg h1, if_neg h1]
        by_cases h2 : k' = k
        · rw [if_pos h2, if_pos h2]; rfl
        · rw [if_neg h2, if_neg h2]; rfl

/-- **THE CUT, FOR INSERTION**: the middle part takes the binding. -/
theorem put_cut (v : V) (M : List (K × V)) (hA : ∀ e ∈ A, e.1 < k) (hB : ∀ e ∈ B, k < e.1) :
    put k v (A ++ (M ++ B)) = A ++ (put k v M ++ B) := by
  rw [put_append_left v _ hA, put_append_right v M hB]

/-- **THE CUT, FOR LOOKUP**: the middle part answers. -/
theorem get_cut (M : List (K × V)) (hA : ∀ e ∈ A, e.1 < k) (hB : ∀ e ∈ B, k < e.1) :
    get k (A ++ (M ++ B)) = get k M := by
  rw [get_append, get_append,
    get_eq_none (fun e he => ne_of_lt (hA e he)),
    get_eq_none (l := B) (fun e he => ne_of_gt (hB e he))]
  simp

/-- The first key of a sorted list is not among the others. -/
theorem Sorted.get_tail {e : K × V} (h : Sorted (e :: l)) : get e.1 l = none :=
  get_eq_none fun e' he' => ne_of_gt ((pairwise_cons.mp h).1 e' he')

/-- A list without `k` is what deleting `k` leaves. -/
theorem del_eq_self (h : ∀ e ∈ l, e.1 ≠ k) : del k l = l := by
  unfold del
  rw [filter_eq_self]
  intro e he
  simpa using h e he

/-- **THE CUT, FOR DELETION**: the middle part gives the binding up. -/
theorem del_cut (M : List (K × V)) (hA : ∀ e ∈ A, e.1 < k) (hB : ∀ e ∈ B, k < e.1) :
    del k (A ++ (M ++ B)) = A ++ (del k M ++ B) := by
  have h1 : del k A = A := del_eq_self (fun e he => ne_of_lt (hA e he))
  have h2 : del k B = B := del_eq_self (fun e he => ne_of_gt (hB e he))
  unfold del at *
  rw [filter_append, filter_append, h1, h2]

/-- What a key reads after an insertion. -/
theorem get_put (l : List (K × V)) (k k' : K) (v : V) :
    get k' (put k v l) = if k' = k then some v else get k' l := by
  induction l with
  | nil =>
      by_cases h : k' = k
      · subst h; simp [put, get]
      · simp [put, get, h, Ne.symm h]
  | cons e l ih =>
      obtain ⟨k₀, v₀⟩ := e
      simp only [put]
      by_cases h1 : k₀ < k
      · rw [if_pos h1]
        simp only [get]
        rw [ih]
        by_cases h2 : k₀ = k'
        · have hne : k' ≠ k := by rw [← h2]; exact ne_of_lt h1
          rw [if_pos h2, if_pos h2, if_neg hne]
        · rw [if_neg h2, if_neg h2]
      · rw [if_neg h1]
        by_cases h2 : k₀ = k
        · rw [if_pos h2]
          subst h2
          simp only [get]
          by_cases h3 : k' = k₀
          · rw [if_pos h3, if_pos h3.symm]
          · rw [if_neg h3, if_neg (Ne.symm h3), if_neg (Ne.symm h3)]
        · rw [if_neg h2]
          simp only [get]
          by_cases h3 : k' = k
          · rw [if_pos h3, if_pos h3.symm]
          · rw [if_neg h3, if_neg (Ne.symm h3)]

/-- What a key reads when only some keys are kept. -/
theorem get_filter (q : K → Bool) (l : List (K × V)) (k : K) :
    get k (l.filter (fun e => q e.1)) = if q k = true then get k l else none := by
  induction l with
  | nil => simp [get]
  | cons e l ih =>
      obtain ⟨k₀, v₀⟩ := e
      by_cases h0 : k₀ = k
      · subst h0
        by_cases hq : q k₀ = true
        · simp [hq, get]
        · rw [filter_cons_of_neg (by simpa using hq), ih, if_neg hq, if_neg hq]
      · by_cases hq : q k₀ = true
        · rw [filter_cons_of_pos (by simpa using hq)]
          simp only [get, if_neg h0]
          exact ih
        · rw [filter_cons_of_neg (by simpa using hq), ih]
          simp only [get, if_neg h0]

/-- What a key reads after a deletion. -/
theorem get_del (l : List (K × V)) (k k' : K) :
    get k' (del k l) = if k' = k then none else get k' l := by
  have h := get_filter (fun x => decide (x ≠ k)) l k'
  by_cases hk : k' = k
  · rw [if_pos hk]
    rwa [if_neg (by simpa using hk)] at h
  · rw [if_neg hk]
    rwa [if_pos (by simpa using hk)] at h

/-- Keys after an insertion. -/
theorem mem_put {e : K × V} (h : e ∈ put k v l) : e = (k, v) ∨ e ∈ l := by
  induction l with
  | nil => simpa [put] using h
  | cons d l ih =>
      obtain ⟨k₀, v₀⟩ := d
      simp only [put] at h
      by_cases h1 : k₀ < k
      · rw [if_pos h1] at h
        rcases mem_cons.mp h with heq | hmem
        · exact .inr (heq ▸ (.head _) ..)
        · rcases ih hmem with h2 | h2
          · exact .inl h2
          · exact .inr (.tail _ h2)
      · rw [if_neg h1] at h
        by_cases h2 : k₀ = k
        · rw [if_pos h2] at h
          rcases mem_cons.mp h with heq | hmem
          · exact .inl heq
          · exact .inr (.tail _ hmem)
        · rw [if_neg h2] at h
          rcases mem_cons.mp h with heq | hmem
          · exact .inl heq
          · exact .inr hmem

/-- Insertion keeps the list sorted. -/
theorem sorted_put (hs : Sorted l) (k : K) (v : V) : Sorted (put k v l) := by
  induction l with
  | nil => exact pairwise_singleton _ _
  | cons e l ih =>
      obtain ⟨k₀, v₀⟩ := e
      have hs' := pairwise_cons.mp hs
      simp only [put]
      by_cases h1 : k₀ < k
      · rw [if_pos h1]
        refine pairwise_cons.mpr ⟨?_, ih hs'.2⟩
        intro e he
        rcases mem_put he with heq | hmem
        · subst heq; exact h1
        · exact hs'.1 e hmem
      · rw [if_neg h1]
        by_cases h2 : k₀ = k
        · rw [if_pos h2]
          subst h2
          exact pairwise_cons.mpr ⟨hs'.1, hs'.2⟩
        · rw [if_neg h2]
          have hk : k < k₀ := lt_of_le_of_ne (not_lt.mp h1) (Ne.symm h2)
          refine pairwise_cons.mpr ⟨?_, hs⟩
          intro e he
          rcases mem_cons.mp he with heq | hmem
          · subst heq; exact hk
          · exact lt_trans hk (hs'.1 e hmem)

/-- Mapping the values keeps the keys. -/
theorem get_map {W : Type} (f : V → W) (l : List (K × V)) (k : K) :
    get k (l.map (fun e => (e.1, f e.2))) = (get k l).map f := by
  induction l with
  | nil => rfl
  | cons e rest ih =>
      simp only [map_cons, get]
      split
      · rfl
      · exact ih

theorem sorted_map {W : Type} (f : V → W) (hs : Sorted l) :
    Sorted (l.map (fun e => (e.1, f e.2))) :=
  pairwise_map.mpr hs

/-- Deletion keeps the list sorted. -/
theorem sorted_del (hs : Sorted l) (k : K) : Sorted (del k l) :=
  hs.sublist filter_sublist

/-- Sorted lists with the same bindings are the same list. -/
theorem eq_of_get {l' : List (K × V)} (hs : Sorted l) (hs' : Sorted l')
    (h : ∀ k, get k l = get k l') : l = l' := by
  have : Std.Irrefl (fun a b : K × V => a.1 < b.1) := ⟨fun a => lt_irrefl a.1⟩
  have : Std.Antisymm (fun a b : K × V => a.1 < b.1) := ⟨fun a b hab hba => absurd hab hba.not_gt⟩
  refine List.Pairwise.eq_of_mem_iff hs hs' ?_
  rintro ⟨k, v⟩
  constructor
  · intro hmem
    exact mem_of_get (h k ▸ get_of_mem hs hmem)
  · intro hmem
    exact mem_of_get ((h k).trans (get_of_mem hs' hmem))

/-! ## Ranges -/

section Ranges

variable {α : Type} {p : α → Bool} {l : List α}

/-- What holds of a first part only: taking it is filtering. -/
theorem takeWhile_eq_filter (h : l.Pairwise (fun a b => p b = true → p a = true)) :
    l.takeWhile p = l.filter p := by
  induction l with
  | nil => rfl
  | cons a l ih =>
      obtain ⟨hfirst, hrest⟩ := pairwise_cons.mp h
      by_cases ha : p a = true
      · rw [takeWhile_cons_of_pos ha, filter_cons_of_pos ha, ih hrest]
      · rw [takeWhile_cons_of_neg ha, filter_cons_of_neg ha, eq_comm,
          filter_eq_nil_iff]
        exact fun b hb hpb => ha (hfirst b hb hpb)

theorem dropWhile_eq_filter (h : l.Pairwise (fun a b => p b = true → p a = true)) :
    l.dropWhile p = l.filter (fun a => !p a) := by
  induction l with
  | nil => rfl
  | cons a l ih =>
      obtain ⟨hfirst, hrest⟩ := pairwise_cons.mp h
      by_cases ha : p a = true
      · rw [dropWhile_cons_of_pos ha, filter_cons_of_neg (by simp [ha]), ih hrest]
      · rw [dropWhile_cons_of_neg ha, eq_comm, filter_eq_self]
        intro b hb
        rcases mem_cons.mp hb with rfl | hmem
        · simpa using ha
        · simpa using fun hpb => ha (hfirst b hmem hpb)

end Ranges

end AssocList
