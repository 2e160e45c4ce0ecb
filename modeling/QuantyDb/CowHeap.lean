import Mathlib

/-! # Heaps with copy-on-write

    A heap maps ids to cells.  A writer owns some cells, which it may
    overwrite, and has ids available, which nothing uses yet; every other cell
    is frozen.  `Moves v C v' C'` says what a piece of work on the cells `C`
    may do: rewrite those of them that the writer owns, take available ids,
    and leave the cells `C'` behind.

    The rules are those of a separation logic without its connectives.  Work
    is sequenced by `Moves.trans`, and `Moves.frame` carries along cells that
    the work does not name.  Frozen cells may be shared: only owned cells have
    to occur once. -/

namespace CowHeap

open List

variable {ι P : Type}

/-- What a writer sees. -/
structure View (ι P : Type) where
  read : ι → Option P
  Owned : ι → Prop
  Avail : ι → Prop

/-- The cells are there, an owned one is named once, and none is available. -/
structure Holds (v : View ι P) (C : List (ι × P)) : Prop where
  stored : ∀ c ∈ C, v.read c.1 = some c.2
  once : C.Pairwise (fun c d => v.Owned c.1 → c.1 ≠ d.1)
  apart : ∀ c ∈ C, ¬ v.Avail c.1

/-- From `v` to `v'` only cells of `W` and available ids were written. -/
structure Extends (W : ι → Prop) (v v' : View ι P) : Prop where
  read : ∀ x, ¬ v.Avail x → ¬ W x → v'.read x = v.read x
  owned : ∀ x, v.Owned x → v'.Owned x
  fresh : ∀ x, v'.Owned x → v.Owned x ∨ v.Avail x
  avail : ∀ x, v'.Avail x → v.Avail x

/-- Work on the cells `C` that leaves the cells `C'`. -/
structure Moves (v : View ι P) (C : List (ι × P)) (v' : View ι P) (C' : List (ι × P)) :
    Prop where
  ext : Extends (fun x => v.Owned x ∧ ∃ c ∈ C, c.1 = x) v v'
  holds : Holds v' C'
  ids : ∀ c ∈ C', (∃ d ∈ C, d.1 = c.1) ∨ v.Avail c.1

section Rules

variable {v v' v'' : View ι P} {A B C C' C'' D : List (ι × P)}

/-! ## Holding cells -/

theorem Holds.nil (v : View ι P) : Holds v [] :=
  ⟨nofun, List.Pairwise.nil, nofun⟩

theorem Holds.sublist (h : Holds v C) (hs : D.Sublist C) : Holds v D :=
  ⟨fun c hc => h.stored c (hs.subset hc), h.once.sublist hs,
    fun c hc => h.apart c (hs.subset hc)⟩

theorem Holds.perm (h : Holds v C) (hp : C.Perm D) : Holds v D := by
  refine ⟨fun c hc => h.stored c (hp.mem_iff.mpr hc), ?_,
    fun c hc => h.apart c (hp.mem_iff.mpr hc)⟩
  refine (hp.pairwise_iff ?_).mp h.once
  intro c d hcd hd heq
  exact hcd (heq ▸ hd) heq.symm

theorem holds_append :
    Holds v (A ++ B) ↔ Holds v A ∧ Holds v B
      ∧ ∀ a ∈ A, ∀ b ∈ B, v.Owned a.1 → a.1 ≠ b.1 := by
  constructor
  · intro h
    exact ⟨h.sublist (sublist_append_left A B), h.sublist (sublist_append_right A B),
      (pairwise_append.mp h.once).2.2⟩
  · rintro ⟨hA, hB, hAB⟩
    refine ⟨?_, pairwise_append.mpr ⟨hA.once, hB.once, hAB⟩, ?_⟩
    · intro c hc
      rcases mem_append.mp hc with hc | hc
      · exact hA.stored c hc
      · exact hB.stored c hc
    · intro c hc
      rcases mem_append.mp hc with hc | hc
      · exact hA.apart c hc
      · exact hB.apart c hc

/-! ## Work -/

theorem Extends.refl (W : ι → Prop) (v : View ι P) : Extends W v v :=
  ⟨fun _ _ _ => rfl, fun _ h => h, fun _ h => .inl h, fun _ h => h⟩

theorem Extends.trans {W W' : ι → Prop} (h : Extends W v v') (h' : Extends W' v' v'')
    (hW : ∀ x, W' x → W x ∨ v.Avail x) : Extends W v v'' := by
  refine ⟨?_, fun x hx => h'.owned x (h.owned x hx), ?_, fun x hx => h.avail x (h'.avail x hx)⟩
  · intro x hx hWx
    have h1 : ¬ v'.Avail x := fun ha => hx (h.avail x ha)
    have h2 : ¬ W' x := fun hw => (hW x hw).elim hWx hx
    rw [h'.read x h1 h2, h.read x hx hWx]
  · intro x hx
    rcases h'.fresh x hx with ho | ha
    · exact h.fresh x ho
    · exact .inr (h.avail x ha)

theorem Moves.refl (h : Holds v C) : Moves v C v C :=
  ⟨Extends.refl _ v, h, fun c hc => .inl ⟨c, hc, rfl⟩⟩

/-- **SEQUENCING**. -/
theorem Moves.trans (h : Moves v C v' C') (h' : Moves v' C' v'' C'') : Moves v C v'' C'' := by
  refine ⟨h.ext.trans h'.ext ?_, h'.holds, ?_⟩
  · rintro x ⟨ho, c, hc, rfl⟩
    rcases h.ext.fresh _ ho with hov | hav
    · rcases h.ids c hc with hd | ha
      · exact .inl ⟨hov, hd⟩
      · exact .inr ha
    · exact .inr hav
  · intro c hc
    rcases h'.ids c hc with ⟨d, hd, hdc⟩ | ha
    · rw [← hdc]
      exact h.ids d hd
    · exact .inr (h.ext.avail _ ha)

/-- What is left behind may be forgotten. -/
theorem Moves.drop (h : Moves v C v' C') (hs : D.Sublist C') : Moves v C v' D :=
  ⟨h.ext, h.holds.sublist hs, fun c hc => h.ids c (hs.subset hc)⟩

theorem Moves.perm (h : Moves v C v' C') (hp : C.Perm A) (hp' : C'.Perm B) : Moves v A v' B := by
  have hmem : ∀ x, (∃ c ∈ C, c.1 = x) ↔ ∃ c ∈ A, c.1 = x := fun x =>
    ⟨fun ⟨c, hc, hx⟩ => ⟨c, hp.mem_iff.mp hc, hx⟩, fun ⟨c, hc, hx⟩ => ⟨c, hp.mem_iff.mpr hc, hx⟩⟩
  refine ⟨?_, h.holds.perm hp', ?_⟩
  · refine ⟨fun x hx hW => h.ext.read x hx ?_, h.ext.owned, h.ext.fresh, h.ext.avail⟩
    rintro ⟨ho, hc⟩
    exact hW ⟨ho, (hmem x).mp hc⟩
  · intro c hc
    rcases h.ids c (hp'.mem_iff.mpr hc) with hd | ha
    · exact .inl ((hmem _).mp hd)
    · exact .inr ha

/-- Cells that are not named keep what they hold. -/
theorem Moves.keep (h : Moves v C v' C') (hh : Holds v (C ++ D)) : Holds v' (C' ++ D) := by
  obtain ⟨-, hD, hCD⟩ := holds_append.mp hh
  -- a cell of `D` is neither available nor an owned cell of `C`
  have hout : ∀ d ∈ D, ¬ (v.Owned d.1 ∧ ∃ c ∈ C, c.1 = d.1) := by
    rintro d hd ⟨ho, c, hc, hcd⟩
    exact hCD c hc d hd (hcd ▸ ho) hcd
  have hown : ∀ d ∈ D, v'.Owned d.1 → v.Owned d.1 := by
    intro d hd ho
    exact (h.ext.fresh _ ho).resolve_right (hD.apart d hd)
  refine holds_append.mpr ⟨h.holds, ⟨?_, ?_, ?_⟩, ?_⟩
  · intro d hd
    rw [h.ext.read _ (hD.apart d hd) (hout d hd)]
    exact hD.stored d hd
  · refine hD.once.imp_of_mem ?_
    intro c d hc hd hcd ho
    exact hcd (hown c hc ho)
  · intro d hd ha
    exact hD.apart d hd (h.ext.avail _ ha)
  · intro c hc d hd ho heq
    rcases h.ids c hc with ⟨e, he, hec⟩ | ha
    · have hed : e.1 = d.1 := hec.trans heq
      exact hCD e he d hd (hed ▸ hown d hd (heq ▸ ho)) hed
    · exact hD.apart d hd (heq ▸ ha)

/-- **THE FRAME RULE**: work goes on beside cells that it does not name. -/
theorem Moves.frame (h : Moves v C v' C') (hh : Holds v (C ++ D)) :
    Moves v (C ++ D) v' (C' ++ D) := by
  refine ⟨?_, h.keep hh, ?_⟩
  · refine ⟨fun x hx hW => h.ext.read x hx ?_, h.ext.owned, h.ext.fresh, h.ext.avail⟩
    rintro ⟨ho, c, hc, hx⟩
    exact hW ⟨ho, c, mem_append_left _ hc, hx⟩
  · intro c hc
    rcases mem_append.mp hc with hc | hc
    · rcases h.ids c hc with ⟨d, hd, hdc⟩ | ha
      · exact .inl ⟨d, mem_append_left _ hd, hdc⟩
      · exact .inr ha
    · exact .inl ⟨c, mem_append_right _ hc, rfl⟩

/-- The frame rule for cells in the middle. -/
theorem Moves.frame_mid (h : Moves v C v' C') (hh : Holds v (A ++ (C ++ B))) :
    Moves v (A ++ (C ++ B)) v' (A ++ (C' ++ B)) := by
  have hp : ∀ X : List (ι × P), (X ++ (A ++ B)).Perm (A ++ (X ++ B)) := fun X => by
    rw [← append_assoc, ← append_assoc]
    exact (perm_append_comm).append_right B
  exact (h.frame (hh.perm (hp C).symm)).perm (hp C) (hp C')

end Rules

end CowHeap
