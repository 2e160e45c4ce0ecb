import QuantyDb.TreeModel

/-! # A tree in order is a finite map

    `Tree.find`, `Tree.insert` and `Tree.delete` on a tree in order are lookup,
    insert-or-replace and delete on the list of its entries, and the tree they
    leave is in order again.

    The proofs follow one decomposition.  The descent for a key cuts the marks
    of the tree in three: what lies to the left of the leaf it ends at, the
    entries of that leaf, and what lies to the right.  Everything to the left
    is below the key and everything to the right above it, so whatever happens
    to the leaf happens to the whole. -/

namespace QuantyTreeMap

open QuantyKey QuantyPage QuantyBtree QuantyTree List AssocList Fan Tree List.Sublist

/-! ## Marks against a key -/

/-- A mark to the left of where `key` belongs. -/
def Below (key : Key) (m : Mark) : Prop := m.1 < key ∨ (m.1 = key ∧ m.2 = none)

/-- A mark to the right of where `key` belongs. -/
def Above (key : Key) (m : Mark) : Prop := key < m.1

variable {key : Key} {X l : List Mark} {f t : Tree} {es : List (Key × Tree)} {ps : Nat}
  {v : ValueRef} {u : Bool} {o : Option Tree} {m : Mark} {s : Key} {i : Nat} {f' : Tree}
  {es' : List (Key × Tree)}

theorem below_of_markLt_sep (h : MarkLt m (s, none)) (hs : s ≤ key) : Below key m := by
  rcases h with hlt | ⟨-, -, hne⟩
  · exact .inl (lt_of_lt_of_le hlt hs)
  · exact absurd rfl hne

theorem above_of_sep_markLt (h : MarkLt (s, none) m) (hs : key < s) : Above key m := by
  rcases h with hlt | ⟨heq, -, -⟩
  · exact lt_trans hs hlt
  · exact lt_of_lt_of_eq hs heq

@[simp] theorem unmark_append (l m : List Mark) : unmark (l ++ m) = unmark l ++ unmark m := by
  simp [unmark]

@[simp] theorem unmark_sep_cons (s : Key) (l : List Mark) : unmark ((s, none) :: l) = unmark l := by
  simp [unmark]

@[simp] theorem unmark_entryMarks (es : List (Key × ValueRef)) : unmark (entryMarks es) = es := by
  simp [unmark, entryMarks, filterMap_map]

theorem mem_unmark {e : Key × ValueRef} : e ∈ unmark l ↔ (e.1, some e.2) ∈ l := by
  simp only [unmark, mem_filterMap, Option.map_eq_some_iff]
  constructor
  · rintro ⟨⟨k, v⟩, hm, w, hw, rfl⟩
    obtain rfl : v = some w := hw
    exact hm
  · intro h
    exact ⟨(e.1, some e.2), h, e.2, rfl, rfl⟩

/-- Entries to the left of a key are below it. -/
theorem unmark_below (h : ∀ m ∈ l, Below key m) : ∀ e ∈ unmark l, e.1 < key := by
  intro e he
  rcases h _ (mem_unmark.mp he) with hlt | ⟨-, hnone⟩
  · exact hlt
  · nomatch hnone

theorem unmark_above (h : ∀ m ∈ l, Above key m) : ∀ e ∈ unmark l, key < e.1 :=
  fun _ he => h _ (mem_unmark.mp he)

theorem entries_leaf (es : List (Key × ValueRef)) : (leaf es).entries = es := by
  rw [entries, marks_leaf, unmark_entryMarks]

/-- Entries of marks in order are in order. -/
theorem sorted_unmark (h : l.Pairwise MarkLt) : AssocList.Sorted (unmark l) := by
  refine List.Pairwise.filterMap _ ?_ h
  rintro ⟨k, v⟩ ⟨k', v'⟩ hlt _ he _ he'
  obtain ⟨w, hw, rfl⟩ := Option.map_eq_some_iff.mp he
  obtain ⟨w', -, rfl⟩ := Option.map_eq_some_iff.mp he'
  rcases hlt with hlt | ⟨-, hnone, -⟩
  · exact hlt
  · exact absurd (hnone.symm.trans hw) (by simp)

/-- The entries among the marks of slots are those of the children. -/
theorem unmark_slotMarks (l : List (Option Key × Tree)) :
    unmark (slotMarks l) = l.flatMap (fun s => s.2.entries) := by
  induction l with
  | nil => rfl
  | cons s l ih =>
      rw [slotMarks_cons, unmark_append, unmark_append, ih, flatMap_cons]
      cases s.1 <;> simp [sepMark, entries, unmark]

/-- The entries of a branch are those of its children. -/
theorem entries_branch (f : Tree) (es : List (Key × Tree)) :
    (branch f es).entries = (slots f es).flatMap (fun s => s.2.entries) := by
  rw [entries, marks_branch, unmark_slotMarks]

theorem sorted_entries (h : t.Ordered) : AssocList.Sorted t.entries :=
  sorted_unmark h

theorem sorted_of_entryMarks {es : List (Key × ValueRef)}
    (h : (entryMarks es).Pairwise MarkLt) : AssocList.Sorted es := by
  have := sorted_unmark h
  rwa [unmark_entryMarks] at this

/-! ## Routing -/

section Cuts

variable {f : Tree} {es : List (Key × Tree)} {i : Nat} {pre : List (Option Key × Tree)}
  {s : Option Key}

/-- The marks of a branch around those of one child. -/
theorem marks_cut (hc : Fan.Cut f es i pre s) :
    (branch f es).marks = (slotMarks pre ++ sepMark s)
      ++ ((child f es i).marks ++ slotMarks (entrySlots (es.drop i))) := by
  rw [marks_branch, hc.eq]
  simp

/-- The entries of a branch around those of one child. -/
theorem entries_cut (hc : Fan.Cut f es i pre s) :
    (branch f es).entries = unmark (slotMarks pre ++ sepMark s)
      ++ ((child f es i).entries ++ unmark (slotMarks (entrySlots (es.drop i)))) := by
  rw [entries, marks_cut hc, unmark_append, unmark_append (marks _)]
  rfl

theorem marks_setChild (hc : Fan.Cut f es i pre s) (x : Tree) :
    (branch (setChild f es i x).1 (setChild f es i x).2).marks
      = (slotMarks pre ++ sepMark s)
        ++ (x.marks ++ slotMarks (entrySlots (es.drop i))) := by
  rw [marks_branch, hc.set]
  simp

theorem marks_insertChild (hc : Fan.Cut f es i pre s) (x : Tree) (k : Key) (r : Tree) :
    (branch (setChild f es i x).1
        ((setChild f es i x).2.insertIdx i (k, r))).marks
      = (slotMarks pre ++ sepMark s)
        ++ ((x.marks ++ (k, none) :: r.marks) ++ slotMarks (entrySlots (es.drop i))) := by
  rw [marks_branch, hc.insert]
  simp [sepMark]

end Cuts

/-- **ROUTING**: the child at the rank of a key has everything below the key to
    its left and everything above it to its right, and the operations on that
    child act between the two. -/
theorem route (h : (branch f es).Ordered) (key : Key) :
    ∃ pre s, Fan.Cut f es (rank key es) pre s
      ∧ (∀ m ∈ slotMarks pre ++ sepMark s, Below key m)
      ∧ (∀ m ∈ slotMarks (entrySlots (es.drop (rank key es))), Above key m) := by
  obtain ⟨pre, s, hc⟩ := exists_cut f es (rank_le_length key es)
  have hord := h
  rw [Tree.Ordered, marks_branch, hc.eq, slotMarks_append, slotMarks_cons] at hord
  refine ⟨pre, s, hc, ?_, ?_⟩
  · intro m hm
    cases hs : s with
    | none =>
        -- nothing opens the first child, so nothing is to its left
        rw [hc.opened hs, hs] at hm
        cases hm
    | some k =>
        rw [hs] at hm hord
        have hk : k ≤ key := by
          obtain ⟨e, he, rfl⟩ := hc.keys (s, child f es (rank key es)) (by simp) k hs
          exact le_of_mem_take_rank he
        rcases mem_append.mp hm with hm | hm
        · have hlt : MarkLt m (k, none) :=
            (pairwise_append.mp hord).2.2 m hm (k, none) (by simp [sepMark])
          exact below_of_markLt_sep hlt hk
        · obtain rfl : m = (k, none) := by simpa [sepMark] using hm
          rcases lt_or_eq_of_le hk with hlt | heq
          · exact .inl hlt
          · exact .inr ⟨heq, rfl⟩
  · intro m hm
    cases hd : es.drop (rank key es) with
    | nil =>
        rw [hd] at hm
        cases hm
    | cons e rest =>
        have hlt : key < e.1 := lt_of_drop_rank hd
        rw [hd] at hm hord
        rw [entrySlots, map_cons, slotMarks_cons] at hm hord
        have hpw := (pairwise_append.mp (pairwise_append.mp hord).2.1).2.1
        simp only [sepMark, singleton_append] at hm hpw
        rcases mem_cons.mp hm with heq | hmem
        · rw [heq]; exact hlt
        · exact above_of_sep_markLt ((pairwise_cons.mp hpw).1 m hmem) hlt

/-- The children of a tree in order are in order. -/
theorem ordered_child (h : (branch f es).Ordered) (hi : i ≤ es.length) :
    (child f es i).Ordered := by
  obtain ⟨pre, s, hc⟩ := exists_cut f es hi
  rw [Tree.Ordered, marks_branch, hc.eq] at h
  refine h.sublist ?_
  rw [slotMarks_append, slotMarks_cons]
  refine List.Sublist.trans ?_ (sublist_append_right _ _)
  refine List.Sublist.trans ?_ (sublist_append_left _ _)
  exact sublist_append_right _ _

theorem ordered_first (h : (branch f es).Ordered) : f.Ordered :=
  ordered_child h (Nat.zero_le _)

theorem ordered_entry (h : (branch f es).Ordered) {e : Key × Tree} (he : e ∈ es) :
    e.2.Ordered := by
  obtain ⟨i, hi, rfl⟩ := getElem_of_mem he
  have := ordered_child h (i := i + 1) hi
  rwa [child, getElem?_eq_getElem hi] at this

/-- The separators of a branch are among its marks. -/
theorem separators_sublist (f : Tree) (es : List (Key × Tree)) :
    (es.map (fun e => ((e.1, none) : Mark))).Sublist (branch f es).marks := by
  rw [marks_branch, slots, slotMarks_cons]
  refine List.Sublist.trans ?_ (sublist_append_right _ _)
  induction es with
  | nil => exact List.Sublist.slnil
  | cons e es ih =>
      rw [map_cons, map_cons, slotMarks_cons, sepMark, append_assoc]
      exact (ih.trans (sublist_append_right _ _)).cons_cons _

/-- In a tree in order, every node is in order. -/
theorem inOrder_of_ordered (h : t.Ordered) : t.InOrder := by
  induction t using Tree.induct with
  | hleaf es =>
      refine all_leaf.mpr (sorted_of_entryMarks ?_)
      rw [← marks_leaf]
      exact h
  | hbranch f es ihf ihes =>
      refine all_branch.mpr ⟨?_, ihf (ordered_first h), fun e he => ihes e he (ordered_entry h he)⟩
      have hsep := pairwise_map.mp (List.Pairwise.sublist (separators_sublist f es) h)
      refine hsep.imp ?_
      rintro a b (hlt | ⟨-, -, hne⟩)
      · exact hlt
      · exact absurd rfl hne

/-! ## The recursion goes to the child at the rank -/

theorem insert_branch (ps : Nat) (key : Key) (v : ValueRef) (u : Bool) (f : Tree)
    (es : List (Key × Tree)) :
    (branch f es).insert ps key v u
      = graftChild ps f es (rank key es) ((branchChild f es key).insert ps key v u) := by
  rw [Tree.insert, branchChild]
  congr 1
  have hle := rank_le_length key es
  split
  next h0 => rw [h0]; rfl
  next i hi =>
    rw [hi]
    exact at_child (by simp [insert.insertAt]) (by simp [insert.insertAt])
      f es (by omega)

theorem delete_branch (ps : Nat) (key : Key) (f : Tree) (es : List (Key × Tree)) :
    (branch f es).delete ps key
      = pruneChild ps f es (rank key es) ((branchChild f es key).delete ps key) := by
  rw [delete, branchChild]
  congr 1
  have hle := rank_le_length key es
  split
  next h0 => rw [h0]; rfl
  next i hi =>
    rw [hi]
    exact at_child (by simp [delete.deleteAt]) (by simp [delete.deleteAt])
      f es (by omega)

theorem find_branch (key : Key) (f : Tree) (es : List (Key × Tree)) :
    (branch f es).find key = (branchChild f es key).find key := by
  rw [find, branchChild]
  have hle := rank_le_length key es
  split
  next h0 => rw [h0]; rfl
  next i hi =>
    rw [hi]
    exact at_child (by simp [find.findAt]) (by simp [find.findAt])
      f es (by omega)

/-! ## Lookup -/

/-- **LOOKUP**: a descent answers what the entries say. -/
theorem find_eq_get (h : t.Ordered) (key : Key) : t.find key = AssocList.get key t.entries := by
  induction t using descend key with
  | hleaf es => rw [find, entries_leaf]
  | hbranch f es ih =>
      obtain ⟨pre, s, hc, hbelow, habove⟩ := route h key
      rw [find_branch, ih (ordered_child h (rank_le_length key es)), entries_cut hc]
      exact (get_cut _ (unmark_below hbelow) (unmark_above habove)).symm

/-! ## Insertion -/

/-- The marks that an insertion leaves behind, the separator it passes up
    included. -/
def insertedMarks : Inserted → Option (List Mark)
  | .done t => some t.marks
  | .split l sep r => some (l.marks ++ (sep, none) :: r.marks)
  | .duplicate => none
  | .overrun => none

/-- The marks of entries, with at most one separator among them, right before
    an entry that is not the first. -/
def Spread (es : List (Key × ValueRef)) (X : List Mark) : Prop :=
  X = entryMarks es ∨
    ∃ e l sep v r, es = (e :: l) ++ (sep, v) :: r
      ∧ X = entryMarks (e :: l) ++ (sep, none) :: entryMarks ((sep, v) :: r)

theorem unmark_spread {es : List (Key × ValueRef)} (h : Spread es X) : unmark X = es := by
  rcases h with rfl | ⟨e, l, sep, v, r, rfl, rfl⟩
  · exact unmark_entryMarks es
  · rw [unmark_append, unmark_sep_cons, unmark_entryMarks, unmark_entryMarks]

theorem leafCut_pos (es : List (Key × ValueRef)) : 1 ≤ leafCut es := Nat.le_max_left ..

theorem closeLeaf_marks {es : List (Key × ValueRef)}
    (h : insertedMarks (closeLeaf ps es) = some X) :
    Spread es X := by
  unfold closeLeaf at h
  split at h
  · exact .inl ((Option.some.inj h).symm.trans (marks_leaf es))
  · split at h
    · nomatch h
    · split at h
      · nomatch h
      · next sep v rest hdrop =>
        unfold halves at h
        split at h
        · have hes : es = es.take (leafCut es) ++ (sep, v) :: rest := by
            rw [← hdrop, take_append_drop]
          have hne : es.take (leafCut es) ≠ [] := by
            intro h0
            have hlen := congrArg List.length h0
            have := leafCut_pos es
            have hd := congrArg List.length hdrop
            simp only [length_take, length_nil, length_drop,
              length_cons] at hlen hd
            omega
          obtain ⟨e, l, hel⟩ := exists_cons_of_ne_nil hne
          refine .inr ⟨e, l, sep, v, rest, hel ▸ hes, ?_⟩
          rw [← hel]
          rw [← Option.some.inj h, marks_leaf, marks_leaf]
        · nomatch h

/-- Closing a branch, whole or in halves, leaves its marks as they are. -/
theorem closeBranch_marks (h : insertedMarks (closeBranch ps f es) = some X) :
    X = (branch f es).marks := by
  unfold closeBranch at h
  split at h
  · exact (Option.some.inj h).symm
  · split at h
    · nomatch h
    · split at h
      · nomatch h
      · next sep rf rest hdrop =>
        unfold halves at h
        split at h
        · rw [← Option.some.inj h]
          conv_rhs => rw [← take_append_drop (branchCut es.length) es, hdrop]
          rw [marks_branch, marks_branch, marks_branch, slots_append,
            slotMarks_append, map_cons, slotMarks_cons]
          simp [sepMark, slots]
        · nomatch h

/-- **INSERTION, THE CUT**: the leaf that the descent ends at takes the entry;
    everything to its left and right stays, but for separators passed up. -/
theorem insert_cut (h : t.Ordered) (hX : insertedMarks (t.insert ps key v u) = some X) :
    ∃ A es B Y, t.marks = A ++ (entryMarks es ++ B) ∧ X = A ++ (Y ++ B)
      ∧ (∀ m ∈ A, Below key m) ∧ (∀ m ∈ B, Above key m)
      ∧ Spread (put key v es) Y
      ∧ (u = true → AssocList.get key es = none) := by
  induction t using descend key generalizing X with
  | hleaf es =>
      rw [Tree.insert] at hX
      split at hX
      · nomatch hX
      · next hdup =>
        refine ⟨[], es, [], X, ?_, ?_, nofun, nofun,
          closeLeaf_marks hX, ?_⟩
        · rw [marks_leaf, append_nil, nil_append]
        · rw [append_nil, nil_append]
        · intro hu
          simpa [hu] using hdup
  | hbranch f es ih =>
      obtain ⟨pre, s, hc, hbelow, habove⟩ := route h key
      have hres : ∃ X', insertedMarks ((branchChild f es key).insert ps key v u) = some X'
          ∧ X = (slotMarks pre ++ sepMark s)
            ++ (X' ++ slotMarks (entrySlots (es.drop (rank key es)))) := by
        rw [insert_branch] at hX
        cases hr : (branchChild f es key).insert ps key v u with
        | duplicate => rw [hr] at hX; nomatch hX
        | overrun => rw [hr] at hX; nomatch hX
        | done c =>
            rw [hr] at hX
            refine ⟨c.marks, rfl, ?_⟩
            rw [← Option.some.inj hX, marks_setChild hc]
        | split l sep r =>
            rw [hr] at hX
            refine ⟨_, rfl, ?_⟩
            rw [closeBranch_marks hX, marks_insertChild hc]
      obtain ⟨X', hX', rfl⟩ := hres
      obtain ⟨A, les, B, Y, hA, hX'', hAb, hBa, hY, hu⟩ :=
        ih (ordered_child h (rank_le_length key es)) hX'
      refine ⟨(slotMarks pre ++ sepMark s) ++ A, les,
        B ++ slotMarks (entrySlots (es.drop (rank key es))), Y, ?_, ?_, ?_, ?_, hY, hu⟩
      · rw [marks_cut hc, show (child f es (rank key es)).marks = _ from hA]
        simp
      · rw [hX'']
        simp
      · intro m hm
        rcases mem_append.mp hm with hm | hm
        · exact hbelow m hm
        · exact hAb m hm
      · intro m hm
        rcases mem_append.mp hm with hm | hm
        · exact hBa m hm
        · exact habove m hm

/-- Marks that replace those of a leaf stay in order with the rest. -/
theorem pairwise_spread {A B Y : List Mark} {es : List (Key × ValueRef)}
    (h : (A ++ (entryMarks es ++ B)).Pairwise MarkLt) (hA : ∀ m ∈ A, Below key m)
    (hB : ∀ m ∈ B, Above key m) (hY : Spread (put key v es) Y) :
    (A ++ (Y ++ B)).Pairwise MarkLt := by
  obtain ⟨hA2, hMB, hAM⟩ := pairwise_append.mp h
  obtain ⟨hM, hB2, hMB⟩ := pairwise_append.mp hMB
  have hsorted := sorted_put (sorted_of_entryMarks hM) key v
  -- an entry that is in the leaf afterwards is new or was there
  have hleft : ∀ m ∈ A, ∀ e ∈ put key v es, MarkLt m (e.1, some e.2) := by
    intro m hm e he
    rcases mem_put he with rfl | hmem
    · rcases hA m hm with hlt | ⟨heq, hnone⟩
      · exact .inl hlt
      · exact .inr ⟨heq, hnone, by simp⟩
    · exact hAM m hm _ (mem_append_left _ (mem_map.mpr ⟨e, hmem, rfl⟩))
  have hright : ∀ m ∈ B, ∀ e ∈ put key v es, e.1 < m.1 := by
    intro m hm e he
    rcases mem_put he with rfl | hmem
    · exact hB m hm
    · rcases hMB _ (mem_map.mpr ⟨e, hmem, rfl⟩) m hm with hlt | ⟨-, hnone, -⟩
      · exact hlt
      · nomatch hnone
  have hmarks : ∀ l : List (Key × ValueRef), AssocList.Sorted l →
      (entryMarks l).Pairwise MarkLt := fun l hl =>
    pairwise_map.mpr (hl.imp .inl)
  rcases hY with rfl | ⟨e, l, sep, w, r, hput, rfl⟩
  · refine pairwise_append.mpr ⟨hA2, pairwise_append.mpr ⟨hmarks _ hsorted, hB2, ?_⟩, ?_⟩
    · intro m hm b hb
      obtain ⟨e, he, rfl⟩ := mem_map.mp hm
      exact .inl (hright b hb e he)
    · intro a ha m hm
      rcases mem_append.mp hm with hm | hm
      · obtain ⟨e, he, rfl⟩ := mem_map.mp hm
        exact hleft a ha e he
      · exact hAM a ha m (mem_append_right _ hm)
  · rw [hput] at hsorted hleft hright
    obtain ⟨hs1, hs2, hs12⟩ := pairwise_append.mp hsorted
    have hsep : ∀ m ∈ entryMarks ((sep, w) :: r), MarkLt (sep, none) m := by
      intro m hm
      obtain ⟨e', he', rfl⟩ := mem_map.mp hm
      rcases mem_cons.mp he' with rfl | hmem
      · exact .inr ⟨rfl, rfl, by simp⟩
      · exact .inl ((pairwise_cons.mp hs2).1 e' hmem)
    refine pairwise_append.mpr ⟨hA2, pairwise_append.mpr ⟨?_, hB2, ?_⟩, ?_⟩
    · refine pairwise_append.mpr
        ⟨hmarks _ hs1, pairwise_cons.mpr ⟨hsep, hmarks _ hs2⟩, ?_⟩
      intro m hm m' hm'
      obtain ⟨e1, he1, rfl⟩ := mem_map.mp hm
      rcases mem_cons.mp hm' with rfl | hm'
      · exact .inl (hs12 e1 he1 (sep, w) (by simp))
      · obtain ⟨e2, he2, rfl⟩ := mem_map.mp hm'
        exact .inl (hs12 e1 he1 e2 he2)
    · intro m hm b hb
      refine .inl ?_
      rcases mem_append.mp hm with hm | hm
      · obtain ⟨e1, he1, rfl⟩ := mem_map.mp hm
        exact hright b hb e1 (mem_append_left _ he1)
      · rcases mem_cons.mp hm with rfl | hm
        · exact hright b hb (sep, w) (by simp)
        · obtain ⟨e2, he2, rfl⟩ := mem_map.mp hm
          exact hright b hb e2 (mem_append_right _ he2)
    · intro a ha m hm
      rcases mem_append.mp hm with hm | hm
      · rcases mem_append.mp hm with hm | hm
        · obtain ⟨e1, he1, rfl⟩ := mem_map.mp hm
          exact hleft a ha e1 (mem_append_left _ he1)
        · rcases mem_cons.mp hm with rfl | hm
          · -- the separator is past the first entry, which is past `a`
            have h1 := hleft a ha e (by simp)
            have h2 : e.1 < sep := hs12 e (by simp) (sep, w) (by simp)
            rcases h1 with hlt | ⟨heq, -, -⟩
            · exact .inl (lt_trans hlt h2)
            · exact .inl (lt_of_eq_of_lt heq h2)
          · obtain ⟨e2, he2, rfl⟩ := mem_map.mp hm
            exact hleft a ha e2 (mem_append_right _ he2)
      · exact hAM a ha m (mem_append_right _ hm)

/-- **INSERTION**: the marks left behind are in order, their entries are those
    of the tree with the binding put in, and a unique insertion found the key
    absent. -/
theorem insert_spec (h : t.Ordered) (hX : insertedMarks (t.insert ps key v u) = some X) :
    X.Pairwise MarkLt ∧ unmark X = put key v t.entries
      ∧ (u = true → AssocList.get key t.entries = none) := by
  obtain ⟨A, es, B, Y, ht, rfl, hA, hB, hY, hu⟩ := insert_cut h hX
  have hentries : t.entries = unmark A ++ (es ++ unmark B) := by
    rw [entries, ht, unmark_append, unmark_append, unmark_entryMarks]
  refine ⟨?_, ?_, ?_⟩
  · rw [Tree.Ordered, ht] at h
    exact pairwise_spread h hA hB hY
  · rw [hentries, put_cut v es (unmark_below hA) (unmark_above hB), unmark_append,
      unmark_append, unmark_spread hY]
  · intro hu'
    rw [hentries, get_cut es (unmark_below hA) (unmark_above hB)]
    exact hu hu'

theorem halves_ne_duplicate (ps : Nat) (l : Tree) (sep : Key) (r : Tree) :
    halves ps l sep r ≠ .duplicate := by
  unfold halves
  split <;> simp

theorem closeLeaf_ne_duplicate (ps : Nat) (es : List (Key × ValueRef)) :
    closeLeaf ps es ≠ .duplicate := by
  unfold closeLeaf
  repeat' split
  all_goals first | exact halves_ne_duplicate _ _ _ _ | simp

theorem closeBranch_ne_duplicate (ps : Nat) (f : Tree) (es : List (Key × Tree)) :
    closeBranch ps f es ≠ .duplicate := by
  unfold closeBranch
  repeat' split
  all_goals first | exact halves_ne_duplicate _ _ _ _ | simp

theorem graftChild_duplicate {r : Inserted} :
    graftChild ps f es i r = .duplicate ↔ r = .duplicate := by
  cases r with
  | split l sep r => exact iff_of_false (closeBranch_ne_duplicate _ _ _) nofun
  | _ => simp [graftChild]

/-- A duplicate is what a unique insertion of a key that is there leaves. -/
theorem insert_duplicate :
    t.insert ps key v u = .duplicate ↔ u = true ∧ (t.find key).isSome = true := by
  induction t using descend key with
  | hleaf es =>
      rw [Tree.insert, Tree.find]
      split
      · next hdup => exact iff_of_true rfl (by simpa using hdup)
      · next hdup => exact iff_of_false (closeLeaf_ne_duplicate _ _) (by simpa using hdup)
  | hbranch f es ih => rw [insert_branch, graftChild_duplicate, find_branch, ih]

/-- A key that is not there is inserted the same way, unique or not. -/
theorem insert_of_absent (h : t.find key = none) (u : Bool) :
    t.insert ps key v u = t.insert ps key v false := by
  induction t using descend key with
  | hleaf es =>
      rw [find] at h
      rw [Tree.insert, Tree.insert, h]
      simp
  | hbranch f es ih =>
      rw [find_branch] at h
      rw [insert_branch, insert_branch, ih h]

/-! ## Deletion -/

/-- What a deletion leaves: the binding is gone, and no mark is new. -/
def Pruned (key : Key) (t : Tree) : Removed → Prop
  | .notFound => AssocList.get key t.entries = none
  | .updated t' => (AssocList.get key t.entries).isSome = true
      ∧ t'.marks.Sublist t.marks ∧ t'.entries = del key t.entries
  | .emptied => (AssocList.get key t.entries).isSome = true
      ∧ del key t.entries = []
  | .mixed => True

theorem collapse_marks (f : Tree) (es : List (Key × Tree)) :
    (collapse f es).marks = (branch f es).marks := by
  cases es with
  | nil => simp [collapse, marks_branch, slots, sepMark]
  | cons e es => rfl

/-- Merging two leaves drops the separator between them; merging two branches
    moves it down. -/
theorem mergeTrees_marks {sep : Key} {l r m : Tree} (h : mergeTrees sep l r = some m) :
    m.marks.Sublist (l.marks ++ (sep, none) :: r.marks)
      ∧ m.entries = unmark (l.marks ++ (sep, none) :: r.marks) := by
  unfold mergeTrees at h
  split at h
  · next l r =>
    cases h
    rw [entries, marks_leaf, marks_leaf, marks_leaf]
    refine ⟨?_, ?_⟩
    · rw [show entryMarks (l ++ r) = entryMarks l ++ entryMarks r from by simp [entryMarks]]
      exact (refl _).append (sublist_cons_self _ _)
    · simp
  · next lf l rf r =>
    cases h
    have hm : (branch lf (l ++ (sep, rf) :: r)).marks
        = (branch lf l).marks ++ (sep, none) :: (branch rf r).marks := by
      rw [marks_branch, marks_branch, marks_branch, slots_append,
        slotMarks_append]
      simp [slots, sepMark]
    rw [entries, hm]
    exact ⟨refl _, rfl⟩
  · cases h

/-- A merge, made or refused, keeps the entries and brings no mark. -/
theorem joinPair_marks {li : Nat} (h : joinPair ps f es li = some (f', es')) :
    (branch f' es').marks.Sublist (branch f es).marks
      ∧ (branch f' es').entries = (branch f es).entries := by
  unfold joinPair at h
  split at h
  · cases h
    exact ⟨refl _, rfl⟩
  · next sep right hget =>
    split at h
    · nomatch h
    · next merged hmerge =>
      split at h
      · cases h
        exact ⟨refl _, rfl⟩
      · cases h
        obtain ⟨hlt, hget'⟩ := List.getElem?_eq_some_iff.mp hget
        obtain ⟨pre, s, hc⟩ := exists_cut f es (Nat.le_of_lt hlt)
        obtain ⟨hsub, hent⟩ := mergeTrees_marks hmerge
        -- the right neighbour is the slot after the left one
        have hdrop : es.drop li = (sep, right) :: es.drop (li + 1) := by
          rw [drop_eq_getElem_cons hlt, hget']
        have hold : (branch f es).marks = (slotMarks pre ++ sepMark s)
            ++ (((child f es li).marks ++ (sep, none) :: right.marks)
              ++ slotMarks (entrySlots (es.drop (li + 1)))) := by
          rw [marks_cut hc, hdrop]
          simp [sepMark]
        have hnew : (branch (setChild f es li merged).1
            ((setChild f es li merged).2.eraseIdx li)).marks
            = (slotMarks pre ++ sepMark s) ++ (merged.marks
              ++ slotMarks (entrySlots (es.drop (li + 1)))) := by
          rw [marks_branch, hc.merge]
          simp
        rw [entries, entries, hnew, hold]
        refine ⟨(refl _).append (hsub.append (refl _)), ?_⟩
        rw [unmark_append, unmark_append merged.marks, show unmark merged.marks = _ from hent,
          unmark_append (slotMarks pre ++ sepMark s), unmark_append (marks _ ++ _)]

theorem mergeChild_marks {idx : Nat} (h : mergeChild ps f es idx = some (f', es')) :
    (branch f' es').marks.Sublist (branch f es).marks
      ∧ (branch f' es').entries = (branch f es).entries := by
  unfold mergeChild at h
  split at h
  · cases h
    exact ⟨refl _, rfl⟩
  · exact joinPair_marks h

/-- **DELETION**: the tree loses the binding of the key and nothing else. -/
theorem delete_spec (ps : Nat) (key : Key) (h : t.Ordered) : Pruned key t (t.delete ps key) := by
  induction t using descend key with
  | hleaf es =>
      rw [delete]
      split
      · next hsome =>
        split
        · next hempty =>
          exact ⟨by rw [entries_leaf]; exact hsome, by
            rw [entries_leaf]; exact isEmpty_iff.mp hempty⟩
        · refine ⟨by rw [entries_leaf]; exact hsome, ?_, by rw [entries_leaf, entries_leaf]⟩
          rw [marks_leaf, marks_leaf]
          exact filter_sublist.map _
      · next hnone =>
        show AssocList.get key (leaf es).entries = none
        rw [entries_leaf]
        simpa using hnone
  | hbranch f es ih =>
      obtain ⟨pre, s, hc, hbelow, habove⟩ := route h key
      have hih := ih (ordered_child h (rank_le_length key es))
      -- what the child says about the key, the branch says
      have hget : AssocList.get key (branch f es).entries
          = AssocList.get key (branchChild f es key).entries := by
        rw [entries_cut hc]
        exact get_cut _ (unmark_below hbelow) (unmark_above habove)
      have hdel : del key (branch f es).entries
          = unmark (slotMarks pre ++ sepMark s) ++ (del key (branchChild f es key).entries
            ++ unmark (slotMarks (entrySlots (es.drop (rank key es))))) := by
        rw [entries_cut hc]
        exact del_cut _ (unmark_below hbelow) (unmark_above habove)
      rw [delete_branch]
      cases hr : (branchChild f es key).delete ps key with
      | notFound =>
          rw [hr] at hih
          exact hget.trans hih
      | mixed => exact trivial
      | updated c =>
          rw [hr] at hih
          obtain ⟨hsome, hsub, hent⟩ := hih
          simp only [pruneChild]
          split
          · exact trivial
          · next f' es' hmerge =>
            obtain ⟨hsub', hent'⟩ := mergeChild_marks hmerge
            refine ⟨hget ▸ hsome, ?_, ?_⟩
            · rw [collapse_marks]
              refine hsub'.trans ?_
              rw [marks_setChild hc, marks_cut hc]
              exact (refl _).append (hsub.append (refl _))
            · rw [entries, collapse_marks]
              refine hent'.trans ?_
              rw [hdel, entries, marks_setChild hc, unmark_append, unmark_append c.marks,
                show unmark c.marks = _ from hent]
      | emptied =>
          rw [hr] at hih
          obtain ⟨hsome, hent⟩ := hih
          have hsome' := hget ▸ hsome
          rw [hent, nil_append] at hdel
          -- the slot of the child goes, with the separator that opens it
          have hdone : ∀ g gs, slotMarks (slots g gs)
                = slotMarks pre ++ slotMarks (entrySlots (es.drop (rank key es)))
                ∨ (slotMarks pre ++ sepMark s = []
                  ∧ ∃ k, slotMarks (entrySlots (es.drop (rank key es)))
                    = (k, none) :: slotMarks (slots g gs)) →
              Pruned key (branch f es) (.updated (collapse g gs)) := by
            intro g gs hg
            refine ⟨hsome', ?_, ?_⟩
            · rw [collapse_marks, marks_branch, marks_cut hc]
              rcases hg with hg | ⟨hnil, k, hk⟩
              · rw [hg]
                refine (sublist_append_left _ _).append ?_
                exact sublist_append_right _ _
              · rw [hnil, hk, nil_append]
                exact (sublist_cons_self _ _).trans (sublist_append_right _ _)
            · rw [hdel, entries, collapse_marks, marks_branch]
              rcases hg with hg | ⟨hnil, k, hk⟩
              · rw [hg, unmark_append, unmark_append]
                cases s <;> simp [sepMark, unmark]
              · rw [hnil, hk, unmark_sep_cons]
                rfl
          simp only [pruneChild]
          split
          · next h0 =>
            -- the only child is gone
            refine ⟨hsome', ?_⟩
            rw [hdel, (hc.first h0).1, (hc.first h0).2]
            rfl
          · next k c rest h0 =>
            refine hdone _ _ (.inr ⟨?_, k, ?_⟩)
            · rw [(hc.first h0).1, (hc.first h0).2]
              rfl
            · rw [h0]
              simp [slots, sepMark]
          · next i hi =>
            refine hdone _ _ (.inl ?_)
            rw [hc.drop i hi, slotMarks_append]

/-- The tree that a deletion leaves is in order. -/
theorem delete_ordered {t' : Tree} (h : t.Ordered) (hd : t.delete ps key = .updated t') :
    t'.Ordered := by
  have hs := delete_spec ps key h
  rw [hd] at hs
  exact List.Pairwise.sublist hs.2.1 h

/-! ## Whole trees -/

section Top

variable {ps : Nat} {key : Key}

/-- The entries of a tree that may be empty. -/
def topEntries : Option Tree → List (Key × ValueRef)
  | none => []
  | some t => t.entries

theorem topFind_eq_get (ho : ∀ t, o = some t → t.Ordered) :
    topFind key o = AssocList.get key (topEntries o) := by
  cases o with
  | none => rfl
  | some t => exact find_eq_get (ho t rfl) key

/-- **INSERTION AT THE TOP** puts the entry. -/
theorem insertTop_spec {s : Tree} (ho : ∀ t, o = some t → t.Ordered)
    (h : insertTop ps key v o = some s) :
    s.Ordered ∧ s.entries = put key v (topEntries o) := by
  cases o with
  | none =>
      obtain ⟨-, rfl⟩ : _ ∧ leaf [(key, v)] = s := by simpa [insertTop] using h
      refine ⟨?_, entries_leaf _⟩
      rw [Tree.Ordered, marks_leaf]
      exact pairwise_singleton _ _
  | some t =>
      -- a root above two halves has the marks of the halves
      have hmarks : insertedMarks (t.insert ps key v false) = some s.marks := by
        simp only [insertTop, plant] at h
        split at h
        · next hr => rw [hr]; cases h; rfl
        · next l sep r hr =>
          split at h
          · cases h
            rw [hr, marks_branch]
            simp [insertedMarks, slots, sepMark]
          · cases h
        · cases h
        · cases h
      obtain ⟨hord, hent, -⟩ := insert_spec (ho t rfl) hmarks
      exact ⟨hord, hent⟩

/-- **DELETION AT THE TOP** deletes the key and says whether it was there. -/
theorem deleteTop_spec {s : Option Tree} {found : Bool} (ho : ∀ t, o = some t → t.Ordered)
    (h : deleteTop ps key o = some (s, found)) :
    (∀ t, s = some t → t.Ordered) ∧ topEntries s = del key (topEntries o)
      ∧ found = (AssocList.get key (topEntries o)).isSome := by
  cases o with
  | none =>
      cases h
      exact ⟨nofun, rfl, rfl⟩
  | some t =>
      have hspec := delete_spec ps key (ho t rfl)
      simp only [deleteTop, uproot] at h
      split at h
      · next hr =>
        rw [hr] at hspec
        cases h
        have hnone : AssocList.get key (topEntries (some t)) = none := hspec
        refine ⟨ho, (del_eq_self fun e he heq => ?_).symm, by rw [hnone]; rfl⟩
        have hsome := get_isSome_iff.mpr ⟨e, he, heq⟩
        rw [hnone] at hsome
        nomatch hsome
      · next t' hr =>
        have hord := delete_ordered (ho t rfl) hr
        rw [hr] at hspec
        cases h
        refine ⟨fun x hx => ?_, hspec.2.2, hspec.1.symm⟩
        cases hx
        exact hord
      · next hr =>
        rw [hr] at hspec
        cases h
        exact ⟨nofun, hspec.2.symm, hspec.1.symm⟩
      · nomatch h

end Top

end QuantyTreeMap
