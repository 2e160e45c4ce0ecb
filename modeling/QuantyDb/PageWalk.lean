import Mathlib

/-! # Walking a graph of pages in order

    A page is a row of slots, each a record or a pointer to a child.  A walk
    goes along the slots of a page, into every child it meets, and back; it
    keeps a stack of pages with the slot it is at in each, and the pages it has
    been to, and refuses to go to one of them again.  Reading a slot, entering
    a page and accepting a record may fail, and a failure ends the walk.

    Whatever the graph, such a walk ends (`run_ends`).  When it ends without a
    failure the pages it reached are a tree and what it handed out are the
    tree's records in order (`run_finished`, `Whole.isTree`).

    An iterator that hands out one record a call makes such a walk when each
    of its steps is one of the walk's (`Simulates`): its calls then answer what
    the walk hands out (`answer_eq`), and it goes into no page twice
    (`enters_once`). -/

namespace PageWalk

open List

variable {P R A O E : Type}

inductive Slot (P R : Type)
  | record (r : R)
  | child (p : P)

/-- Pages, and what may be done with them. -/
structure Graph (P R A O E : Type) where
  /-- The slot of a page at a position, if the page has one there. -/
  slot : P → Nat → Except E (Option (Slot P R))
  /-- Whether a page that a slot points to can be gone into. -/
  enter : P → Except E Unit
  /-- The failure at a page that was gone into before. -/
  twice : P → E
  /-- What is handed out for a record, after the ones before it. -/
  accept : A → R → Except E (A × O)

structure Walk (P A : Type) where
  stack : List (P × Nat)
  visited : List P
  acc : A

/-- What a step comes to. -/
inductive Step (P A O E : Type)
  | done
  | fail (e : E)
  | go (w : Walk P A) (out : Option O)

inductive Ending (E : Type)
  | finished
  | failed (e : E)
  | cut
  deriving DecidableEq

variable {w : Walk P A} {out : Option O} {e : E} {fuel n slots : Nat} {c : P} {r : R}
  {G : Graph P R A O E} {acc : A} {os : List O} {pages : List P}

section Machine

variable [DecidableEq P] (G : Graph P R A O E)

def step (w : Walk P A) : Step P A O E :=
  match w.stack with
  | [] => .done
  | (p, i) :: below =>
      match G.slot p i with
      | .error e => .fail e
      | .ok none => .go { w with stack := below } none
      | .ok (some (.record r)) =>
          match G.accept w.acc r with
          | .error e => .fail e
          | .ok (acc, o) => .go { w with stack := (p, i + 1) :: below, acc := acc } (some o)
      | .ok (some (.child c)) =>
          if c ∈ w.visited then .fail (G.twice c)
          else
            match G.enter c with
            | .error e => .fail e
            | .ok _ => .go { w with
                stack := (c, 0) :: (p, i + 1) :: below
                visited := c :: w.visited } none

/-- Step after step, up to a number: what is handed out, and how it ends. -/
def run : Nat → Walk P A → List O × Ending E
  | 0, _ => ([], .cut)
  | n + 1, w =>
      match step G w with
      | .done => ([], .finished)
      | .fail e => ([], .failed e)
      | .go w' out => ((out.toList ++ (run n w').1), (run n w').2)

/-- A walk that sets out. -/
def start (root : P) (acc : A) : Walk P A := ⟨[(root, 0)], [root], acc⟩

/-- **WHAT A STEP CAN DO**: leave a page, hand out a record, or go into a page
    it has not been to. -/
theorem step_go {w' : Walk P A} (h : step G w = .go w' out) :
    ∃ p i below, w.stack = (p, i) :: below ∧
      ((G.slot p i = .ok none ∧ out = none ∧ w' = { w with stack := below }) ∨
      (∃ r acc o, G.slot p i = .ok (some (.record r)) ∧ G.accept w.acc r = .ok (acc, o)
        ∧ out = some o ∧ w' = { w with stack := (p, i + 1) :: below, acc := acc }) ∨
      (∃ c, G.slot p i = .ok (some (.child c)) ∧ c ∉ w.visited ∧ G.enter c = .ok () ∧ out = none
        ∧ w' = { w with stack := (c, 0) :: (p, i + 1) :: below, visited := c :: w.visited })) := by
  rw [step] at h
  split at h
  · nomatch h
  · next p i below hstack =>
    refine ⟨p, i, below, hstack, ?_⟩
    split at h
    · nomatch h
    · next hslot =>
      cases h
      exact .inl ⟨hslot, rfl, rfl⟩
    · next r hslot =>
      split at h
      · nomatch h
      · next acc o hacc =>
        cases h
        exact .inr (.inl ⟨r, acc, o, hslot, hacc, rfl, rfl⟩)
    · next c hslot =>
      split at h
      · nomatch h
      · next hnew =>
        split at h
        · nomatch h
        · next henter =>
          cases h
          exact .inr (.inr ⟨c, hslot, hnew, henter, rfl, rfl⟩)

/-- **HOW A STEP CAN FAIL**. -/
theorem step_fail (h : step G w = .fail e) : ∃ p i below, w.stack = (p, i) :: below ∧
      (G.slot p i = .error e ∨
      (∃ r, G.slot p i = .ok (some (.record r)) ∧ G.accept w.acc r = .error e) ∨
      ∃ c, G.slot p i = .ok (some (.child c)) ∧
        ((c ∈ w.visited ∧ e = G.twice c) ∨ (c ∉ w.visited ∧ G.enter c = .error e))) := by
  rw [step] at h
  split at h
  · nomatch h
  · next p i below hstack =>
    refine ⟨p, i, below, hstack, ?_⟩
    split at h
    · next hslot =>
      cases h
      exact .inl hslot
    · nomatch h
    · next r hslot =>
      split at h
      · next hacc =>
        cases h
        exact .inr (.inl ⟨r, hslot, hacc⟩)
      · nomatch h
    · next c hslot =>
      split at h
      · next hold =>
        cases h
        exact .inr (.inr ⟨c, hslot, .inl ⟨hold, rfl⟩⟩)
      · next hnew =>
        split at h
        · next henter =>
          cases h
          exact .inr (.inr ⟨c, hslot, .inr ⟨hnew, henter⟩⟩)
        · nomatch h

theorem step_done (h : step G w = .done) : w.stack = [] := by
  rw [step] at h
  split at h
  · assumption
  · split at h
    · nomatch h
    · nomatch h
    · split at h <;> nomatch h
    · split at h
      · nomatch h
      · split at h <;> nomatch h

end Machine

/-! ## What a page holds, in order -/

/-- The slots of a page before a position, with all that is below them: the
    records in order and the pages.  A page below is there to its end. -/
inductive Upto (G : Graph P R A O E) : P → Nat → List R → List P → Prop
  | start {p : P} : Upto G p 0 [] []
  | record {p : P} {i : Nat} {rs : List R} {ps : List P} {r : R} (h : Upto G p i rs ps)
      (hslot : G.slot p i = .ok (some (.record r))) : Upto G p (i + 1) (rs ++ [r]) ps
  | child {p : P} {i : Nat} {rs : List R} {ps : List P} {c : P} {n : Nat} {rs' : List R}
      {ps' : List P} (h : Upto G p i rs ps) (hslot : G.slot p i = .ok (some (.child c)))
      (henter : G.enter c = .ok ()) (hbelow : Upto G c n rs' ps') (hend : G.slot c n = .ok none) :
      Upto G p (i + 1) (rs ++ rs') (ps ++ c :: ps')

/-- **A PAGE AND ALL BELOW IT**: the records in order and the pages below. -/
def Whole (G : Graph P R A O E) (root : P) (rs : List R) (ps : List P) : Prop :=
  ∃ n, Upto G root n rs ps ∧ G.slot root n = .ok none

/-- A slot of a page points to another page. -/
def Points (G : Graph P R A O E) (p c : P) : Prop := ∃ i, G.slot p i = .ok (some (.child c))

/-- Past its last slot a page has no others. -/
def Ended (G : Graph P R A O E) : Prop :=
  ∀ p i, G.slot p i = .ok none → ∀ j, i ≤ j → G.slot p j = .ok none

section Reach

variable {G : Graph P R A O E} {p : P} {i : Nat} {rs : List R} {ps : List P}

/-- A slot that is there is before the end. -/
theorem Ended.lt {j : Nat} {s : Slot P R} (hended : Ended G) (hend : G.slot p n = .ok none)
    (hslot : G.slot p j = .ok (some s)) : j < n := by
  by_contra hge
  nomatch (hended p n hend j (Nat.le_of_not_lt hge)).symm.trans hslot

/-- The pages below are those that are reached. -/
theorem Upto.reach (h : Upto G p i rs ps) (hended : Ended G) :
    (∀ j c, j < i → G.slot p j = .ok (some (.child c)) → c ∈ ps) ∧
    (∀ q ∈ ps, ∀ c, Points G q c → c ∈ ps) ∧
    ∀ q ∈ ps, Relation.TransGen (Points G) p q := by
  induction h with
  | start => exact ⟨fun j c hj => absurd hj (Nat.not_lt_zero j), by simp, by simp⟩
  | record _ hslot ih =>
      obtain ⟨hhere, hclosed, hreach⟩ := ih
      refine ⟨?_, hclosed, hreach⟩
      intro j c hj hc
      rcases Nat.lt_succ_iff_lt_or_eq.mp hj with hlt | rfl
      · exact hhere j c hlt hc
      · nomatch hslot.symm.trans hc
  | @child p i rs ps c n rs' ps' _ hslot _ _ hend ih ihc =>
      obtain ⟨hhere, hclosed, hreach⟩ := ih
      obtain ⟨hhere', hclosed', hreach'⟩ := ihc
      have hpoints : Points G p c := ⟨i, hslot⟩
      -- every pointer of the child is among its slots before the end
      have hchild : ∀ d, Points G c d → d ∈ ps' := by
        rintro d ⟨j, hj⟩
        exact hhere' j d (hended.lt hend hj) hj
      refine ⟨?_, ?_, ?_⟩
      · intro j d hj hd
        rcases Nat.lt_succ_iff_lt_or_eq.mp hj with hlt | rfl
        · exact mem_append_left _ (hhere j d hlt hd)
        · cases hslot.symm.trans hd
          exact mem_append_right _ (.head _)
      · intro q hq d hd
        rcases mem_append.mp hq with hq | hq
        · exact mem_append_left _ (hclosed q hq d hd)
        · rcases mem_cons.mp hq with rfl | hq
          · exact mem_append_right _ (.tail _ (hchild d hd))
          · exact mem_append_right _ (.tail _ (hclosed' q hq d hd))
      · intro q hq
        rcases mem_append.mp hq with hq | hq
        · exact hreach q hq
        · rcases mem_cons.mp hq with rfl | hq
          · exact Relation.TransGen.single hpoints
          · exact Relation.TransGen.head hpoints (hreach' q hq)

/-- **THE PAGES OF A WHOLE** are those that its root leads to. -/
theorem Whole.mem_iff (h : Whole G p rs ps) (hended : Ended G) (q : P) :
    Relation.ReflTransGen (Points G) p q ↔ q ∈ p :: ps := by
  obtain ⟨n, hupto, hend⟩ := h
  obtain ⟨hhere, hclosed, hreach⟩ := hupto.reach hended
  have hroot : ∀ d, Points G p d → d ∈ ps := by
    rintro d ⟨j, hj⟩
    exact hhere j d (hended.lt hend hj) hj
  constructor
  · intro hpath
    induction hpath with
    | refl => exact .head _
    | tail _ hstep ih =>
        rcases mem_cons.mp ih with rfl | hmem
        · exact .tail _ (hroot _ hstep)
        · exact .tail _ (hclosed _ hmem _ hstep)
  · intro hq
    rcases mem_cons.mp hq with rfl | hmem
    · exact Relation.ReflTransGen.refl
    · exact (hreach q hmem).to_reflTransGen

/-! ### A tree -/

/-- **A TREE**: of the pages a root leads to none points back to the root, and
    no page is pointed to from two slots. -/
structure IsTree (G : Graph P R A O E) (root : P) : Prop where
  root_free : ∀ q, Relation.ReflTransGen (Points G) root q → ¬ Points G q root
  one_parent : ∀ q q' j j' c, Relation.ReflTransGen (Points G) root q →
    Relation.ReflTransGen (Points G) root q' → G.slot q j = .ok (some (.child c)) →
    G.slot q' j' = .ok (some (.child c)) → q = q' ∧ j = j'

/-- A slot among those of a page before a position, or of a page below. -/
def Inside (p : P) (i : Nat) (ps : List P) (q : P) (j : Nat) : Prop := (q = p ∧ j < i) ∨ q ∈ ps

/-- Where a slot of a page that goes on below a new child can be. -/
theorem Inside.child_cases {q : P} {j : Nat} {ps' : List P} {s : Slot P R} (hended : Ended G)
    (hend : G.slot c n = .ok none) (h : Inside p (i + 1) (ps ++ c :: ps') q j)
    (hslot : G.slot q j = .ok (some s)) :
    Inside p i ps q j ∨ (q = p ∧ j = i) ∨ Inside c n ps' q j := by
  rcases h with ⟨rfl, hj⟩ | hq
  · rcases Nat.lt_succ_iff_lt_or_eq.mp hj with hlt | rfl
    · exact .inl (.inl ⟨rfl, hlt⟩)
    · exact .inr (.inl ⟨rfl, rfl⟩)
  · rcases mem_append.mp hq with hq | hq
    · exact .inl (.inr hq)
    · rcases mem_cons.mp hq with rfl | hq
      · exact .inr (.inr (.inl ⟨rfl, hended.lt hend hslot⟩))
      · exact .inr (.inr (.inr hq))

/-- Every pointer leads to a page below, when the pages are all different no
    two of them to the same. -/
theorem Upto.pointers (h : Upto G p i rs ps) (hended : Ended G) (honce : (p :: ps).Nodup) :
    (∀ q j c, Inside p i ps q j → G.slot q j = .ok (some (.child c)) → c ∈ ps) ∧
    ∀ q q' j j' c, Inside p i ps q j → Inside p i ps q' j' →
      G.slot q j = .ok (some (.child c)) → G.slot q' j' = .ok (some (.child c)) →
      q = q' ∧ j = j' := by
  induction h with
  | @start p =>
      have hnone : ∀ q j, ¬ Inside p 0 [] q j := by
        rintro q j (⟨-, hj⟩ | hq)
        · exact Nat.not_lt_zero j hj
        · nomatch hq
      exact ⟨fun q j c hin => absurd hin (hnone q j), fun q q' j j' c hin => absurd hin (hnone q j)⟩
  | @record p i rs ps r _ hslot ih =>
      obtain ⟨hlead, hone⟩ := ih honce
      -- the new slot is a record, so it is none of the pointers
      have hin : ∀ {q j c}, Inside p (i + 1) ps q j → G.slot q j = .ok (some (.child c)) →
          Inside p i ps q j := by
        rintro q j c (⟨rfl, hj⟩ | hq) hc
        · rcases Nat.lt_succ_iff_lt_or_eq.mp hj with hlt | rfl
          · exact .inl ⟨rfl, hlt⟩
          · nomatch hslot.symm.trans hc
        · exact .inr hq
      exact ⟨fun q j c h hc => hlead q j c (hin h hc) hc,
        fun q q' j j' c h h' hc hc' => hone q q' j j' c (hin h hc) (hin h' hc') hc hc'⟩
  | @child p i rs ps c n rs' ps' _ hslot _ _ hend ih ihc =>
      have hsplit : (p :: ps ++ c :: ps').Nodup := honce
      obtain ⟨hleft, hright, hdisjoint⟩ := nodup_append.mp hsplit
      obtain ⟨hlead, hone⟩ := ih hleft
      obtain ⟨hlead', hone'⟩ := ihc hright
      have hfresh : c ∉ ps := fun hc => hdisjoint c (.tail _ hc) c (.head _) rfl
      have hapart : ∀ d, d ∈ ps → d ∉ ps' := fun d hd hd' =>
        hdisjoint d (.tail _ hd) d (.tail _ hd') rfl
      have hfresh' : c ∉ ps' := (nodup_cons.mp hright).1
      -- the target tells which of the three kinds of slot a pointer is in
      refine ⟨?_, ?_⟩
      · intro q j d hin hd
        rcases hin.child_cases hended hend hd with h | ⟨rfl, rfl⟩ | h
        · exact mem_append_left _ (hlead q j d h hd)
        · cases hslot.symm.trans hd
          exact mem_append_right _ (.head _)
        · exact mem_append_right _ (.tail _ (hlead' q j d h hd))
      · intro q q' j j' d hin hin' hd hd'
        rcases hin.child_cases hended hend hd with h | ⟨rfl, rfl⟩ | h <;>
          rcases hin'.child_cases hended hend hd' with h' | ⟨rfl, rfl⟩ | h'
        · exact hone q q' j j' d h h' hd hd'
        · cases hslot.symm.trans hd'
          exact absurd (hlead q j _ h hd) hfresh
        · exact absurd (hlead' q' j' d h' hd') (hapart d (hlead q j d h hd))
        · cases hslot.symm.trans hd
          exact absurd (hlead q' j' _ h' hd') hfresh
        · exact ⟨rfl, rfl⟩
        · cases hslot.symm.trans hd
          exact absurd (hlead' q' j' _ h' hd') hfresh'
        · exact absurd (hlead' q j d h hd) (hapart d (hlead q' j' d h' hd'))
        · cases hslot.symm.trans hd'
          exact absurd (hlead' q j _ h hd) hfresh'
        · exact hone' q q' j j' d h h' hd hd'

/-- **PAGES THAT ARE ALL DIFFERENT** make a tree. -/
theorem Whole.isTree (h : Whole G p rs ps) (hended : Ended G) (honce : (p :: ps).Nodup) :
    IsTree G p := by
  have hmem := h.mem_iff hended
  obtain ⟨n, hupto, hend⟩ := h
  obtain ⟨hlead, hone⟩ := hupto.pointers hended honce
  have hinside : ∀ {q j s}, Relation.ReflTransGen (Points G) p q → G.slot q j = .ok (some s) →
      Inside p n ps q j := by
    intro q j s hreach hslot
    rcases mem_cons.mp ((hmem q).mp hreach) with rfl | hq
    · exact .inl ⟨rfl, hended.lt hend hslot⟩
    · exact .inr hq
  constructor
  · rintro q hreach ⟨j, hj⟩
    exact (nodup_cons.mp honce).1 (hlead q j p (hinside hreach hj) hj)
  · intro q q' j j' c hreach hreach' hc hc'
    exact hone q q' j j' c (hinside hreach hc) (hinside hreach' hc') hc hc'

end Reach

/-! ## What a walk has seen -/

/-- What lies before the place a stack is at: the records and the pages, the
    root first. -/
inductive Explored (G : Graph P R A O E) (root : P) : List (P × Nat) → List R → List P → Prop
  | root {i : Nat} {rs : List R} {ps : List P} (h : Upto G root i rs ps) :
      Explored G root [(root, i)] rs (root :: ps)
  | push {q : P} {j : Nat} {below : List (P × Nat)} {rs : List R} {ps : List P} {p : P} {i : Nat}
      {rs' : List R} {ps' : List P} (h : Explored G root ((q, j) :: below) rs ps)
      (hslot : G.slot q j = .ok (some (.child p))) (henter : G.enter p = .ok ())
      (hupto : Upto G p i rs' ps') :
      Explored G root ((p, i) :: (q, j + 1) :: below) (rs ++ rs') (ps ++ p :: ps')

section Explored

variable {G : Graph P R A O E} {root p : P} {i i' : Nat} {below : List (P × Nat)}
  {rs rs' : List R} {ps ps' : List P}

/-- The page on top goes on. -/
theorem Explored.extend (h : Explored G root ((p, i) :: below) rs ps)
    (hon : ∀ xs ys, Upto G p i xs ys → Upto G p i' (xs ++ rs') (ys ++ ps')) :
    Explored G root ((p, i') :: below) (rs ++ rs') (ps ++ ps') := by
  cases h with
  | root h => exact Explored.root (hon _ _ h)
  | push h hslot henter hupto =>
      rw [append_assoc, append_assoc]
      exact Explored.push h hslot henter (hon _ _ hupto)

theorem Explored.record (h : Explored G root ((p, i) :: below) rs ps)
    (hslot : G.slot p i = .ok (some (.record r))) :
    Explored G root ((p, i + 1) :: below) (rs ++ [r]) ps := by
  have hon : ∀ xs ys, Upto G p i xs ys → Upto G p (i + 1) (xs ++ [r]) (ys ++ []) := by
    intro xs ys hu
    rw [append_nil]
    exact hu.record hslot
  have := h.extend hon
  rwa [append_nil] at this

/-- A page that is done is left for the one below it. -/
theorem Explored.pop {q : P × Nat} (h : Explored G root ((p, i) :: q :: below) rs ps)
    (hslot : G.slot p i = .ok none) : Explored G root (q :: below) rs ps := by
  cases h with
  | push h hchild henter hupto => exact h.extend fun xs ys hu => hu.child hchild henter hupto hslot

end Explored

/-! ## Runs -/

/-- What is handed out for records one after another. -/
def acceptAll (G : Graph P R A O E) : A → List R → Except E (A × List O)
  | acc, [] => .ok (acc, [])
  | acc, r :: rs =>
      match G.accept acc r with
      | .error e => .error e
      | .ok (acc, o) => (acceptAll G acc rs).map (fun x => (x.1, o :: x.2))

theorem acceptAll_cons {acc' : A} {rs : List R} : acceptAll G acc (r :: rs) = .ok (acc', os) ↔
      ∃ acc₁ o os', G.accept acc r = .ok (acc₁, o) ∧ acceptAll G acc₁ rs = .ok (acc', os')
        ∧ os = o :: os' := by
  rw [acceptAll]
  constructor
  · intro h
    split at h
    · nomatch h
    · next acc₁ o hr =>
      cases hrest : acceptAll G acc₁ rs with
      | error e =>
          rw [hrest] at h
          nomatch h
      | ok y =>
          rw [hrest] at h
          cases h
          exact ⟨acc₁, o, y.2, hr, hrest, rfl⟩
  · rintro ⟨acc₁, o, os', hr, hrest, rfl⟩
    rw [hr]
    dsimp only
    rw [hrest]
    rfl

theorem acceptAll_snoc {acc' acc'' : A} {rs : List R} {o : O}
    (h : acceptAll G acc rs = .ok (acc', os)) (hr : G.accept acc' r = .ok (acc'', o)) :
    acceptAll G acc (rs ++ [r]) = .ok (acc'', os ++ [o]) := by
  induction rs generalizing acc os with
  | nil =>
      cases h
      exact acceptAll_cons.mpr ⟨acc'', o, [], hr, rfl, rfl⟩
  | cons d rs ih =>
      obtain ⟨acc₁, o₁, os', hd, hrest, rfl⟩ := acceptAll_cons.mp h
      exact acceptAll_cons.mpr ⟨acc₁, o₁, os' ++ [o], hd, ih hrest, rfl⟩

/-- **WHERE A WALK IS**: what it has seen, that it has been to those pages and
    to each once, and what it handed out for the records. -/
structure Reached (G : Graph P R A O E) (root : P) (acc : A) (w : Walk P A) (os : List O)
    (rs : List R) (ps : List P) : Prop where
  visited : w.visited = ps.reverse
  once : ps.Nodup
  handed : acceptAll G acc rs = .ok (w.acc, os)
  seen : (w.stack = [] ∧ ∃ ps', ps = root :: ps' ∧ Whole G root rs ps')
    ∨ Explored G root w.stack rs ps

theorem reached_start (G : Graph P R A O E) (root : P) (acc : A) :
    Reached G root acc (start root acc) [] [] [root] where
  visited := rfl
  once := nodup_singleton root
  handed := rfl
  seen := .inr (Explored.root Upto.start)

section Runs

variable [DecidableEq P] {G : Graph P R A O E} {root : P} {acc : A} {w w' : Walk P A}
  {os : List O} {rs : List R} {ps : List P}

/-- **ONE STEP**. -/
theorem Reached.step (h : Reached G root acc w os rs ps) (hstep : step G w = .go w' out) :
    ∃ rs' ps', Reached G root acc w' (os ++ out.toList) rs' ps' := by
  obtain ⟨p, i, below, hstack, hcases⟩ := step_go G hstep
  have hseen : Explored G root ((p, i) :: below) rs ps := by
    rcases h.seen with ⟨hnil, -⟩ | hseen
    · nomatch hnil.symm.trans hstack
    · exact hstack ▸ hseen
  rcases hcases with ⟨hslot, rfl, rfl⟩ | ⟨r, acc', o, hslot, hacc, rfl, rfl⟩ |
    ⟨c, hslot, hnew, henter, rfl, rfl⟩
  · refine ⟨rs, ps, h.visited, h.once, by rw [Option.toList_none, append_nil]; exact h.handed,
      ?_⟩
    cases below with
    | nil =>
        cases hseen with
        | root hupto => exact .inl ⟨rfl, _, rfl, i, hupto, hslot⟩
    | cons q below => exact .inr (hseen.pop hslot)
  · exact ⟨rs ++ [r], ps, h.visited, h.once, acceptAll_snoc h.handed hacc,
      .inr (hseen.record hslot)⟩
  · have hfresh : c ∉ ps := by
      rw [h.visited, mem_reverse] at hnew
      exact hnew
    refine ⟨rs, ps ++ [c], ?_, ?_, by rw [Option.toList_none, append_nil]; exact h.handed, ?_⟩
    · show c :: w.visited = _
      rw [h.visited, reverse_append]
      rfl
    · exact nodup_append.mpr ⟨h.once, nodup_singleton c,
        fun a ha b hb => by rw [mem_singleton.mp hb]; rintro rfl; exact hfresh ha⟩
    · have := hseen.push hslot henter Upto.start
      rw [append_nil] at this
      exact .inr this

/-- **A WALK THAT FINISHES** has seen a whole tree, and handed out what its
    records come to. -/
theorem Reached.run_finished {os' : List O} (h : Reached G root acc w os rs ps)
    (hrun : run G n w = (os', .finished)) :
    ∃ rs' ps' acc', Whole G root rs' ps' ∧ (root :: ps').Nodup
      ∧ acceptAll G acc rs' = .ok (acc', os ++ os') := by
  induction n generalizing w os os' rs ps with
  | zero => nomatch (Prod.mk.inj hrun).2
  | succ n ih =>
      rw [run] at hrun
      cases hstep : PageWalk.step G w with
      | done =>
          rw [hstep] at hrun
          cases hrun
          have hnil := step_done G hstep
          rcases h.seen with ⟨-, ps', rfl, hwhole⟩ | hseen
          · exact ⟨rs, ps', w.acc, hwhole, h.once, by rw [append_nil]; exact h.handed⟩
          · rw [hnil] at hseen
            nomatch hseen
      | fail e =>
          rw [hstep] at hrun
          nomatch (Prod.mk.inj hrun).2
      | go w' out =>
          rw [hstep] at hrun
          obtain ⟨rfl, hend⟩ := Prod.mk.inj hrun
          obtain ⟨rs', ps', h'⟩ := h.step hstep
          have hrest : run G n w' = ((run G n w').1, .finished) := Prod.ext rfl hend
          obtain ⟨rs'', ps'', acc'', hwhole, honce, hall⟩ := ih h' hrest
          exact ⟨rs'', ps'', acc'', hwhole, honce, by rw [hall, append_assoc]⟩

end Runs

/-! ## Failures -/

/-- A failure of the graph's. -/
def Fails (G : Graph P R A O E) (e : E) : Prop :=
  (∃ p i, G.slot p i = .error e) ∨ (∃ acc r, G.accept acc r = .error e) ∨
    (∃ c, G.twice c = e) ∨ ∃ c, G.enter c = .error e

/-- A walk that fails does so because something of the graph did. -/
theorem run_failed [DecidableEq P] (h : (run G n w).2 = .failed e) : Fails G e := by
  induction n generalizing w with
  | zero => nomatch h
  | succ n ih =>
      rw [run] at h
      cases hstep : step G w with
      | done =>
          rw [hstep] at h
          nomatch h
      | fail e' =>
          rw [hstep] at h
          cases h
          obtain ⟨p, i, -, -, hcases⟩ := step_fail G hstep
          rcases hcases with hslot | ⟨r, -, hacc⟩ | ⟨c, -, ⟨-, rfl⟩ | ⟨-, henter⟩⟩
          · exact .inl ⟨p, i, hslot⟩
          · exact .inr (.inl ⟨w.acc, r, hacc⟩)
          · exact .inr (.inr (.inl ⟨c, rfl⟩))
          · exact .inr (.inr (.inr ⟨c, henter⟩))
      | go w' out =>
          rw [hstep] at h
          exact ih h

/-! ## Every walk ends -/

/-- Only so many pages can be gone into, and a page has only so many slots. -/
structure Bounded (G : Graph P R A O E) (pages : List P) (slots : Nat) : Prop where
  enter : ∀ c, G.enter c = .ok () → c ∈ pages
  slot : ∀ p i s, G.slot p i = .ok (some s) → i < slots

/-- The pages of a walk are among those there are. -/
structure Within (pages : List P) (slots : Nat) (w : Walk P A) : Prop where
  once : w.visited.Nodup
  visited : ∀ p ∈ w.visited, p ∈ pages
  stack : ∀ e ∈ w.stack, e.2 ≤ slots

/-- The steps that are left at most: the slots of the pages on the stack, and
    of the pages that were not gone into. -/
def leftOver (pages : List P) (slots : Nat) (w : Walk P A) : Nat :=
  (pages.length - w.visited.length) * (slots + 2)
    + (w.stack.map (fun e => slots + 1 - e.2)).sum

theorem Within.length_le (h : Within pages slots w) : w.visited.length ≤ pages.length :=
  (subperm_of_subset h.once h.visited).length_le

theorem within_start {root : P} (acc : A) (h : root ∈ pages) :
    Within pages slots (start root acc) where
  once := nodup_singleton root
  visited _ hp := mem_singleton.mp hp ▸ h
  stack _ he := mem_singleton.mp he ▸ Nat.zero_le _

section Ends

variable [DecidableEq P] {G : Graph P R A O E} {root : P} {w w' : Walk P A} {pages : List P}
  {slots : Nat}

/-- **A STEP LEAVES LESS**. -/
theorem Within.step (hb : Bounded G pages slots) (h : Within pages slots w)
    (hstep : PageWalk.step G w = .go w' out) :
    Within pages slots w' ∧ leftOver pages slots w' < leftOver pages slots w := by
  obtain ⟨p, i, below, hstack, hcases⟩ := step_go G hstep
  have hbelow : ∀ e ∈ below, e.2 ≤ slots := fun e he =>
    h.stack e (hstack ▸ .tail _ he)
  have hi : i ≤ slots := h.stack (p, i) (hstack ▸ (.head _))
  rw [leftOver, leftOver, hstack, map_cons, sum_cons]
  rcases hcases with ⟨hslot, -, rfl⟩ | ⟨r, acc', o, hslot, -, -, rfl⟩ |
    ⟨c, hslot, hnew, henter, -, rfl⟩
  · refine ⟨⟨h.once, h.visited, hbelow⟩, ?_⟩
    dsimp only
    omega
  · have hlt := hb.slot p i _ hslot
    refine ⟨⟨h.once, h.visited, forall_mem_cons.mpr ⟨hlt, hbelow⟩⟩, ?_⟩
    dsimp only
    rw [map_cons, sum_cons]
    dsimp only
    omega
  · have hlt := hb.slot p i _ hslot
    have hw : Within pages slots
      (⟨(c, 0) :: (p, i + 1) :: below, c :: w.visited, w.acc⟩ : Walk P A) :=
      ⟨nodup_cons.mpr ⟨hnew, h.once⟩,
        forall_mem_cons.mpr ⟨hb.enter c henter, h.visited⟩,
        forall_mem_cons.mpr ⟨Nat.zero_le _, forall_mem_cons.mpr ⟨hlt, hbelow⟩⟩⟩
    refine ⟨hw, ?_⟩
    have hroom := hw.length_le
    dsimp only at hroom ⊢
    rw [length_cons] at hroom ⊢
    rw [map_cons, map_cons, sum_cons, sum_cons]
    dsimp only
    obtain ⟨k, hk⟩ : ∃ k, pages.length - w.visited.length = k + 1 :=
      ⟨pages.length - w.visited.length - 1, by omega⟩
    have hk' : pages.length - (w.visited.length + 1) = k := by omega
    rw [hk, hk', Nat.add_mul]
    omega

/-- **EVERY WALK ENDS**, whatever the pages say. -/
theorem run_ends (hb : Bounded G pages slots) (h : Within pages slots w)
    (hn : leftOver pages slots w < n) : (run G n w).2 ≠ .cut := by
  induction n generalizing w with
  | zero => exact absurd hn (Nat.not_lt_zero _)
  | succ n ih =>
      rw [run]
      cases hstep : PageWalk.step G w with
      | done => nofun
      | fail e => nofun
      | go w' out =>
          obtain ⟨hw', hless⟩ := h.step hb hstep
          exact ih hw' (by omega)

end Ends

/-! ## Iterators -/

/-- An iterator that steps until it has something to hand out.  It stops after
    a failure. -/
structure Machine (σ O E : Type) where
  finished : σ → Bool
  finish : σ → σ
  /-- Nothing is left to step through. -/
  idle : σ → Bool
  step : σ → Except E (Option O) × σ
  finish_finished : ∀ s, finished (finish s) = true

namespace Machine

variable {σ : Type} (m : Machine σ O E) (stuck : E)

/-- One call; `stuck` is for a loop that does not end. -/
def next : Nat → σ → Option (Except E O) × σ
  | 0, s => if m.finished s then (none, s) else (some (.error stuck), s)
  | fuel + 1, s =>
      if m.finished s then (none, s)
      else if m.idle s then (none, m.finish s)
      else
        match m.step s with
        | (.ok (some o), s) => (some (.ok o), s)
        | (.ok none, s) => next fuel s
        | (.error e, s) => (some (.error e), m.finish s)

/-- What the call after a number of calls answers. -/
def answer (fuel : Nat) : Nat → σ → Option (Except E O)
  | 0, s => (m.next stuck fuel s).1
  | k + 1, s => answer fuel k (m.next stuck fuel s).2

/-- One round of the loop of a call. -/
def advance (s : σ) : σ :=
  if m.finished s then s
  else if m.idle s then m.finish s
  else
    match m.step s with
    | (.ok _, s) => s
    | (.error _, s) => m.finish s

/-- A number of rounds. -/
def after : Nat → σ → σ
  | 0, s => s
  | n + 1, s => after n (m.advance s)

theorem next_finished (fuel : Nat) {s : σ} (h : m.finished s = true) :
    m.next stuck fuel s = (none, s) := by
  cases fuel with
  | zero => rw [next, if_pos h]
  | succ fuel => rw [next, if_pos h]

theorem answer_finished (fuel k : Nat) {s : σ} (h : m.finished s = true) :
    m.answer stuck fuel k s = none := by
  induction k with
  | zero => rw [answer, m.next_finished stuck fuel h]
  | succ k ih => rw [answer, m.next_finished stuck fuel h, ih]

theorem after_finished (n : Nat) {s : σ} (h : m.finished s = true) : m.after n s = s := by
  induction n with
  | zero => rfl
  | succ n ih => rw [after, advance, if_pos h, ih]

/-- The answers up to the end, where a number of calls gets there without a
    failure. -/
def drain (fuel : Nat) : Nat → σ → Option (List O)
  | 0, _ => none
  | n + 1, s =>
      match m.next stuck fuel s with
      | (none, _) => some []
      | (some (.ok o), s) => (drain fuel n s).map (o :: ·)
      | (some (.error _), _) => none

variable {m stuck} {fuel fuel' n : Nat} {s : σ}

/-- A call that was not cut short takes no more fuel. -/
theorem next_mono (hle : fuel ≤ fuel') (h : (m.next stuck fuel s).1 ≠ some (.error stuck)) :
    m.next stuck fuel' s = m.next stuck fuel s := by
  induction fuel generalizing fuel' s with
  | zero =>
      cases hfin : m.finished s with
      | true => rw [m.next_finished stuck fuel' hfin, m.next_finished stuck 0 hfin]
      | false => exact absurd (by rw [next, hfin]; rfl) h
  | succ fuel ih =>
      obtain ⟨fuel', rfl⟩ : ∃ f, fuel' = f + 1 := ⟨fuel' - 1, by omega⟩
      rw [next] at h
      rw [next, next]
      split
      · rfl
      · next hfin =>
        rw [if_neg hfin] at h
        split
        · rfl
        · next hidle =>
          rw [if_neg hidle] at h
          split
          · rfl
          · next s' hstep =>
            rw [hstep] at h
            exact ih (by omega) h
          · rfl

/-- **A RUN TO THE END** settles what the answers are. -/
theorem eq_of_drain {answers : List (Except E O)} {os : List O} (hle : fuel ≤ fuel')
    (hdrain : m.drain stuck fuel n s = some os)
    (h : ∀ k, m.answer stuck fuel' k s = answers[k]?) : answers = os.map .ok := by
  induction n generalizing s answers os with
  | zero => nomatch hdrain
  | succ n ih =>
      have hfirst := h 0
      have hrest : ∀ k, m.answer stuck fuel' k (m.next stuck fuel' s).2 = answers[k + 1]? :=
        fun k => h (k + 1)
      rw [answer] at hfirst
      rw [drain] at hdrain
      split at hdrain
      · next s' hnext =>
        obtain rfl := Option.some.inj hdrain
        rw [next_mono hle (by rw [hnext]; nofun), hnext] at hfirst
        exact length_eq_zero_iff.mp (Nat.le_zero.mp (getElem?_eq_none_iff.mp hfirst.symm))
      · next o s' hnext =>
        obtain ⟨os', hos, rfl⟩ := Option.map_eq_some_iff.mp hdrain
        rw [next_mono hle (by rw [hnext]; nofun), hnext] at hfirst hrest
        cases answers with
        | nil => nomatch hfirst
        | cons a answers =>
            obtain rfl := Option.some.inj hfirst
            rw [map_cons, ih hos hrest]
      · nomatch hdrain

end Machine

/-- **THE ITERATOR MAKES THE WALK**: step for step they do the same. -/
structure Simulates [DecidableEq P] {σ : Type} (m : Machine σ O E) (G : Graph P R A O E)
    (Sim : σ → Walk P A → Prop) : Prop where
  running : ∀ {s w}, Sim s w → m.finished s = false
  idle : ∀ {s w}, Sim s w → (m.idle s = true ↔ w.stack = [])
  fail : ∀ {s w e}, Sim s w → step G w = .fail e → (m.step s).1 = .error e
  go : ∀ {s w w' out}, Sim s w → step G w = .go w' out →
    (m.step s).1 = .ok out ∧ Sim (m.step s).2 w'

/-- What the calls answer for a run. -/
def items (r : List O × Ending E) : List (Except E O) :=
  r.1.map .ok ++
    match r.2 with
    | .failed e => [.error e]
    | _ => []

theorem items_append (os : List O) (r : List O × Ending E) :
    items (os ++ r.1, r.2) = os.map .ok ++ items r := by
  rw [items, items, map_append, append_assoc]

theorem ok_ne_error {i : Nat} : (os.map Except.ok)[i]? ≠ some (.error e : Except E O) := by
  intro h
  rw [getElem?_map] at h
  obtain ⟨o, -, ho⟩ := Option.map_eq_some_iff.mp h
  nomatch ho

/-- Only the last answer can be a failure, and then the run failed so. -/
theorem items_error {r : List O × Ending E} {i : Nat} (h : (items r)[i]? = some (.error e)) :
    i + 1 = (items r).length ∧ r.2 = .failed e := by
  obtain ⟨os, ending⟩ := r
  cases ending with
  | finished => exact absurd ((congrArg (·[i]?) (append_nil _)).symm.trans h) ok_ne_error
  | cut => exact absurd ((congrArg (·[i]?) (append_nil _)).symm.trans h) ok_ne_error
  | failed e' =>
      have hitems : items (os, .failed e') = os.map .ok ++ [.error e'] := rfl
      have hlength : (items (os, .failed e')).length = os.length + 1 := by
        rw [hitems, length_append, length_map, length_singleton]
      obtain ⟨hlt, -⟩ := List.getElem?_eq_some_iff.mp h
      rw [hlength] at hlt ⊢
      rw [hitems] at h
      rcases Nat.lt_succ_iff_lt_or_eq.mp hlt with hi | rfl
      · rw [getElem?_append_left (by rw [length_map]; exact hi)] at h
        exact absurd h ok_ne_error
      · rw [getElem?_append_right (Nat.le_of_eq (length_map _)), length_map,
          Nat.sub_self] at h
        cases h
        exact ⟨rfl, rfl⟩

section Iterators

variable [DecidableEq P] {σ : Type} {m : Machine σ O E} {G : Graph P R A O E}
  {Sim : σ → Walk P A → Prop} (hm : Simulates m G Sim) {s : σ} {w w' : Walk P A}

include hm

/-- A walk that is not done is not idle. -/
theorem Simulates.not_idle (h : Sim s w) (hstep : step G w ≠ .done) : ¬ m.idle s = true := by
  intro hidle
  refine hstep ?_
  rw [step, (hm.idle h).mp hidle]

theorem Simulates.idle_of_done (h : Sim s w) (hstep : step G w = .done) : m.idle s = true :=
  (hm.idle h).mpr (step_done G hstep)

/-- **ONE CALL** takes the head off what there is to come. -/
theorem Simulates.next_step (stuck : E) (h : Sim s w) (hcut : (run G n w).2 ≠ .cut)
    (hfuel : n ≤ fuel) : (items (run G n w) = [] ∧ (m.next stuck fuel s).1 = none
      ∧ m.finished (m.next stuck fuel s).2 = true) ∨
    (∃ e, items (run G n w) = [.error e] ∧ (m.next stuck fuel s).1 = some (.error e)
      ∧ m.finished (m.next stuck fuel s).2 = true) ∨
    ∃ o w' k, k ≤ n ∧ items (run G n w) = .ok o :: items (run G k w') ∧ (run G k w').2 ≠ .cut
      ∧ (m.next stuck fuel s).1 = some (.ok o) ∧ Sim (m.next stuck fuel s).2 w' := by
  induction n generalizing s w fuel with
  | zero => exact absurd rfl hcut
  | succ n ih =>
      obtain ⟨fuel, rfl⟩ : ∃ f, fuel = f + 1 := ⟨fuel - 1, by omega⟩
      have hrunning : ¬ m.finished s = true := by simp [hm.running h]
      rw [Machine.next, if_neg hrunning]
      rw [run] at hcut ⊢
      cases hstep : step G w with
      | done =>
          rw [if_pos (hm.idle_of_done h hstep)]
          exact .inl ⟨rfl, rfl, m.finish_finished s⟩
      | fail e =>
          rw [if_neg (hm.not_idle h (by rw [hstep]; nofun))]
          have hfail := hm.fail h hstep
          rcases hms : m.step s with ⟨x, s'⟩
          rw [hms] at hfail
          cases hfail
          exact .inr (.inl ⟨e, rfl, rfl, m.finish_finished s'⟩)
      | go w' out =>
          rw [if_neg (hm.not_idle h (by rw [hstep]; nofun))]
          rw [hstep] at hcut
          obtain ⟨hgo, hsim⟩ := hm.go h hstep
          rcases hms : m.step s with ⟨x, s'⟩
          rw [hms] at hgo hsim
          cases hgo
          cases out with
          | none =>
              have := ih hsim hcut (Nat.le_of_succ_le_succ hfuel)
              rcases this with h1 | h2 | ⟨o, w'', k, hk, hrest⟩
              · exact .inl h1
              · exact .inr (.inl h2)
              · exact .inr (.inr ⟨o, w'', k, Nat.le_succ_of_le hk, hrest⟩)
          | some o => exact .inr (.inr ⟨o, w', n, Nat.le_succ n, rfl, hcut, rfl, hsim⟩)

/-- **THE CALLS ANSWER THE WALK**, and nothing once it has ended. -/
theorem Simulates.answer_eq (stuck : E) (h : Sim s w) (hcut : (run G n w).2 ≠ .cut)
    (hfuel : n ≤ fuel) (k : Nat) : m.answer stuck fuel k s = (items (run G n w))[k]? := by
  induction k generalizing s w n with
  | zero =>
      rw [Machine.answer]
      rcases hm.next_step stuck h hcut hfuel with ⟨hnil, hnone, -⟩ | ⟨e, herr, hsome, -⟩ |
        ⟨o, w', k, -, hcons, -, hsome, -⟩
      · rw [hnil, hnone]
        rfl
      · rw [herr, hsome]
        rfl
      · rw [hcons, hsome]
        rfl
  | succ k ih =>
      rw [Machine.answer]
      rcases hm.next_step stuck h hcut hfuel with ⟨hnil, -, hfin⟩ | ⟨e, herr, -, hfin⟩ |
        ⟨o, w', n', hn', hcons, hcut', -, hsim⟩
      · rw [hnil, m.answer_finished stuck fuel k hfin]
        rfl
      · rw [herr, m.answer_finished stuck fuel k hfin]
        rfl
      · rw [hcons, ih hsim hcut' (Nat.le_trans hn' hfuel)]
        rfl

omit hm in
/-- A round goes into a page: the stack has it on top of what it had. -/
def Enters (m : Machine σ O E) (view : σ → List P) (s : σ) (n : Nat) (c : P) : Prop :=
  m.finished (m.after n s) = false ∧ m.idle (m.after n s) = false
    ∧ (m.step (m.after n s)).1 = .ok none ∧ view (m.step (m.after n s)).2 = c :: view (m.after n s)

omit [DecidableEq P] hm in
theorem enters_succ {view : σ → List P} :
    Enters m view s (n + 1) c ↔ Enters m view (m.advance s) n c := Iff.rfl

omit [DecidableEq P] hm in
theorem not_enters_of_finished {view : σ → List P} (h : m.finished s = true) :
    ¬ Enters m view s n c := by
  intro hc
  have hrunning := hc.1
  rw [m.after_finished n h, h] at hrunning
  nomatch hrunning

variable {view : σ → List P} (hview : ∀ {s w}, Sim s w → view s = w.stack.map Prod.fst)

include hview

/-- A round that goes into a page goes into one that is new, and notes it. -/
theorem Simulates.enters_zero (h : Sim s w) (hc : Enters m view s 0 c) :
    ∃ w', step G w = .go w' none ∧ c ∉ w.visited ∧ c ∈ w'.visited := by
  obtain ⟨-, hbusy, hok, hpush⟩ := hc
  rw [Machine.after] at hbusy hok hpush
  cases hstep : step G w with
  | done => exact absurd (hm.idle_of_done h hstep) (by simp [hbusy])
  | fail e => nomatch (hm.fail h hstep).symm.trans hok
  | go w' out =>
      obtain ⟨hgo, hsim⟩ := hm.go h hstep
      cases hgo.symm.trans hok
      rw [hview h, hview hsim] at hpush
      obtain ⟨p, i, below, hstack, hcases⟩ := step_go G hstep
      rw [hstack] at hpush
      rcases hcases with ⟨-, -, rfl⟩ | ⟨r, acc, o, -, -, ho, -⟩ | ⟨d, -, hnew, -, -, rfl⟩
      · have hlength := congrArg List.length hpush
        simp only [length_cons, length_map] at hlength
        omega
      · nomatch ho
      · cases (List.cons.inj hpush).1
        exact ⟨_, rfl, hnew, (.head _)⟩

omit hm hview in
theorem visited_mono (hstep : step G w = .go w' out) (hc : c ∈ w.visited) : c ∈ w'.visited := by
  obtain ⟨p, i, below, -, hcases⟩ := step_go G hstep
  rcases hcases with ⟨-, -, rfl⟩ | ⟨r, acc, o, -, -, -, rfl⟩ | ⟨d, -, -, -, -, rfl⟩
  · exact hc
  · exact hc
  · exact .tail _ hc

omit hview in
/-- What a round makes of a state that makes a walk: the walk's next step, or
    the end. -/
theorem Simulates.advance_cases (h : Sim s w) :
    m.finished (m.advance s) = true ∨
      ∃ w' out, step G w = .go w' out ∧ Sim (m.advance s) w' := by
  have hrunning : ¬ m.finished s = true := by simp [hm.running h]
  rw [Machine.advance, if_neg hrunning]
  cases hstep : step G w with
  | done =>
      rw [if_pos (hm.idle_of_done h hstep)]
      exact .inl (m.finish_finished s)
  | fail e =>
      rw [if_neg (hm.not_idle h (by rw [hstep]; nofun))]
      have hfail := hm.fail h hstep
      rcases hms : m.step s with ⟨x, s'⟩
      rw [hms] at hfail
      cases hfail
      exact .inl (m.finish_finished s')
  | go w' out =>
      rw [if_neg (hm.not_idle h (by rw [hstep]; nofun))]
      obtain ⟨hgo, hsim⟩ := hm.go h hstep
      rcases hms : m.step s with ⟨x, s'⟩
      rw [hms] at hgo hsim
      cases hgo
      exact .inr ⟨w', out, rfl, hsim⟩

/-- A page that is gone into was not gone into before. -/
theorem Simulates.enters_new (h : Sim s w) (hc : Enters m view s n c) : c ∉ w.visited := by
  induction n generalizing s w with
  | zero =>
      obtain ⟨-, -, hnew, -⟩ := hm.enters_zero hview h hc
      exact hnew
  | succ n ih =>
      rcases hm.advance_cases h with hfin | ⟨w', out, hstep, hsim⟩
      · exact absurd (enters_succ.mp hc) (not_enters_of_finished hfin)
      · exact fun hmem => ih hsim hc (visited_mono hstep hmem)

theorem Simulates.enters_zero_unique {k : Nat} (h : Sim s w) (hzero : Enters m view s 0 c)
    (hk : Enters m view s k c) : k = 0 := by
  cases k with
  | zero => rfl
  | succ k =>
      obtain ⟨w', hstep, -, hmem⟩ := hm.enters_zero hview h hzero
      rcases hm.advance_cases h with hfin | ⟨w'', out, hstep', hsim⟩
      · exact absurd (enters_succ.mp hk) (not_enters_of_finished hfin)
      · cases hstep.symm.trans hstep'
        exact absurd hmem (hm.enters_new hview hsim hk)

/-- **NO PAGE TWICE**. -/
theorem Simulates.enters_once {k : Nat} (h : Sim s w) (hn : Enters m view s n c)
    (hk : Enters m view s k c) : n = k := by
  induction n generalizing s w k with
  | zero => exact (hm.enters_zero_unique hview h hn hk).symm
  | succ n ih =>
      cases k with
      | zero => exact hm.enters_zero_unique hview h hk hn
      | succ k =>
          rcases hm.advance_cases h with hfin | ⟨w', out, hstep, hsim⟩
          · exact absurd (enters_succ.mp hn) (not_enters_of_finished hfin)
          · rw [ih hsim hn hk]

end Iterators

/-! ## An iterator that ends, and misses nothing -/

/-- **WHAT AN ITERATOR OVER A GRAPH DOES**, from a root.  After finitely many
    calls it has no more to say, it goes into no page twice, and only its last
    answer can be a failure.  Without one the pages are a tree, and the answers
    are what the tree's records come to, in order. -/
structure Exhausts {σ : Type} (m : Machine σ O E) (stuck : E) (view : σ → List P)
    (G : Graph P R A O E) (root : P) (acc : A) (s : σ) (answers : List (Except E O)) : Prop where
  ends : ∃ fuel, ∀ f, fuel ≤ f → ∀ k, m.answer stuck f k s = answers[k]?
  once : ∀ n k c, Enters m view s n c → Enters m view s k c → n = k
  not_root : ∀ n, ¬ Enters m view s n root
  last : ∀ i e, answers[i]? = some (.error e) → i + 1 = answers.length
  fails : ∀ e, .error e ∈ answers → Fails G e
  complete : (∀ e, .error e ∉ answers) → IsTree G root ∧
    ∃ rs ps acc' os, Whole G root rs ps ∧ acceptAll G acc rs = .ok (acc', os)
      ∧ answers = os.map .ok

/-- The answers are those of any run that gets to the end. -/
theorem Exhausts.answers_eq {σ : Type} {m : Machine σ O E} {stuck : E} {view : σ → List P}
    {root : P} {acc : A} {s : σ} {answers : List (Except E O)} {os : List O} {fuel n : Nat}
    (h : Exhausts m stuck view G root acc s answers) (hdrain : m.drain stuck fuel n s = some os) :
    answers = os.map .ok := by
  obtain ⟨enough, hends⟩ := h.ends
  exact Machine.eq_of_drain (Nat.le_max_right enough fuel) hdrain
    (hends _ (Nat.le_max_left enough fuel))

/-- A run has no more answers than steps. -/
theorem length_items_run [DecidableEq P] (G : Graph P R A O E) (n : Nat) (w : Walk P A) :
    (items (run G n w)).length ≤ n := by
  induction n generalizing w with
  | zero => exact Nat.le_refl _
  | succ n ih =>
      rw [run]
      cases step G w with
      | done => exact Nat.zero_le _
      | fail e => exact Nat.succ_le_succ (Nat.zero_le n)
      | go w' out =>
          have hrest := ih w'
          have hout : out.toList.length ≤ 1 := by cases out <;> simp
          dsimp only
          rw [items_append, length_append, length_map]
          omega

/-- **EVERY ITERATOR THAT WALKS A BOUNDED GRAPH** ends, and misses nothing: its
    answers are those of a run with enough steps. -/
theorem Simulates.exhausts_run [DecidableEq P] {σ : Type} {m : Machine σ O E}
    {Sim : σ → Walk P A → Prop} (hm : Simulates m G Sim) (stuck : E) {view : σ → List P}
    (hview : ∀ {s w}, Sim s w → view s = w.stack.map Prod.fst) (hended : Ended G)
    (hb : Bounded G pages slots) {root : P} (hroot : root ∈ pages) {s : σ}
    (h : Sim s (start root acc)) (hn : leftOver pages slots (start root acc) < n) :
    Exhausts m stuck view G root acc s (items (run G n (start root acc))) := by
  have hcut := run_ends hb (within_start acc hroot) hn
  refine ⟨?_, ?_, ?_, ?_, ?_, ?_⟩
  · exact ⟨n, fun f hf k => hm.answer_eq stuck h hcut hf k⟩
  · exact fun n k c => hm.enters_once hview h
  · exact fun n hc => hm.enters_new hview h hc (.head _)
  · exact fun i e he => (items_error he).1
  · intro e he
    obtain ⟨i, hi⟩ := mem_iff_getElem?.mp he
    exact run_failed (items_error hi).2
  · intro hclean
    rcases hrun : run G n (start root acc) with ⟨os, ending⟩
    rw [hrun] at hcut hclean
    cases ending with
    | cut => exact absurd rfl hcut
    | failed e => exact absurd (mem_append_right _ (.head _)) (hclean e)
    | finished =>
        obtain ⟨rs, ps, acc', hwhole, honce, hall⟩ := (reached_start G root acc).run_finished hrun
        refine ⟨hwhole.isTree hended honce, rs, ps, acc', os, hwhole, hall, ?_⟩
        exact append_nil _

/-! ## Loops over an iterator -/

section ForLoops

variable {σ X B : Type}

/-- What the calls answer one after another, before there is nothing more. -/
def Yields (next : σ → Option X × σ) : σ → List X → Prop
  | s, [] => (next s).1 = none
  | s, x :: xs => (next s).1 = some x ∧ Yields next (next s).2 xs

/-- A loop over an iterator that may fail; `stuck` is for one that does not
    end. -/
def forEach (stuck : E) (next : σ → Option (Except E O) × σ) (body : B → O → Except E B) :
    Nat → σ → B → Except E B
  | 0, _, _ => .error stuck
  | fuel + 1, s, acc =>
      match next s with
      | (none, _) => .ok acc
      | (some (.error e), _) => .error e
      | (some (.ok o), s) => body acc o >>= forEach stuck next body fuel s

/-- All that an iterator answers. -/
def exhaust (stuck : E) (next : σ → Option X × σ) : Nat → σ → Except E (List X)
  | 0, _ => .error stuck
  | fuel + 1, s =>
      match next s with
      | (none, _) => .ok []
      | (some x, s) => (exhaust stuck next fuel s).map (x :: ·)

/-- A loop over a list of answers. -/
def foldAnswers (body : B → O → Except E B) : List (Except E O) → B → Except E B
  | [], acc => .ok acc
  | .error e :: _, _ => .error e
  | .ok o :: rest, acc => body acc o >>= foldAnswers body rest

/-- **A LOOP OVER AN ITERATOR** is the loop over its answers. -/
theorem forEach_eq {stuck : E} {next : σ → Option (Except E O) × σ} (body : B → O → Except E B)
    {s : σ} {answers : List (Except E O)} (h : Yields next s answers)
    (hfuel : answers.length < fuel) (acc : B) :
    forEach stuck next body fuel s acc = foldAnswers body answers acc := by
  induction answers generalizing s fuel acc with
  | nil =>
      obtain ⟨fuel, rfl⟩ : ∃ f, fuel = f + 1 := ⟨fuel - 1, by omega⟩
      rcases hnext : next s with ⟨x, s'⟩
      rw [Yields, hnext] at h
      cases h
      rw [forEach, hnext, foldAnswers]
  | cons x xs ih =>
      obtain ⟨fuel, rfl⟩ : ∃ f, fuel = f + 1 := ⟨fuel - 1, by omega⟩
      rw [length_cons] at hfuel
      rcases hnext : next s with ⟨y, s'⟩
      rw [Yields, hnext] at h
      obtain ⟨hx, hrest⟩ := h
      cases hx
      rw [forEach, hnext]
      cases x with
      | error e => rfl
      | ok o =>
          rw [foldAnswers]
          exact congrArg (body acc o >>= ·) (funext fun acc' => ih hrest (by omega) acc')

theorem exhaust_eq {stuck : E} {next : σ → Option X × σ} {s : σ} {answers : List X}
    (h : Yields next s answers) (hfuel : answers.length < fuel) :
    exhaust stuck next fuel s = .ok answers := by
  induction answers generalizing s fuel with
  | nil =>
      obtain ⟨fuel, rfl⟩ : ∃ f, fuel = f + 1 := ⟨fuel - 1, by omega⟩
      rcases hnext : next s with ⟨x, s'⟩
      rw [Yields, hnext] at h
      cases h
      rw [exhaust, hnext]
  | cons x xs ih =>
      obtain ⟨fuel, rfl⟩ : ∃ f, fuel = f + 1 := ⟨fuel - 1, by omega⟩
      rw [length_cons] at hfuel
      rcases hnext : next s with ⟨y, s'⟩
      rw [Yields, hnext] at h
      obtain ⟨hx, hrest⟩ := h
      cases hx
      rw [exhaust, hnext]
      dsimp only
      rw [ih hrest (by omega)]
      rfl

/-- A machine that makes a walk answers what a run of the walk does. -/
theorem Simulates.yields [DecidableEq P] {m : Machine σ O E} {Sim : σ → Walk P A → Prop}
    (hm : Simulates m G Sim) (stuck : E) {s : σ} (h : Sim s w) (hcut : (run G n w).2 ≠ .cut)
    (hfuel : n ≤ fuel) : Yields (m.next stuck fuel) s (items (run G n w)) := by
  -- the induction is on the answers: a call takes the first of them
  generalize hitems : items (run G n w) = answers
  induction answers generalizing s w n with
  | nil =>
      rcases hm.next_step stuck h hcut hfuel with ⟨-, hnone, -⟩ | ⟨e, herr, -, -⟩ |
        ⟨o, w', k, -, hcons, -, -, -⟩
      · exact hnone
      · nomatch hitems.symm.trans herr
      · nomatch hitems.symm.trans hcons
  | cons x xs ih =>
      rcases hm.next_step stuck h hcut hfuel with ⟨hnil, -, -⟩ | ⟨e, herr, hsome, hfin⟩ |
        ⟨o, w', k, hk, hcons, hcut', hsome, hsim⟩
      · nomatch hitems.symm.trans hnil
      · cases hitems.symm.trans herr
        exact ⟨hsome, by rw [Yields, m.next_finished stuck fuel hfin]⟩
      · obtain ⟨rfl, hxs⟩ := List.cons.inj (hitems.symm.trans hcons)
        exact ⟨hsome, ih hsim hcut' (Nat.le_trans hk hfuel) hxs.symm⟩

end ForLoops

/-- An iterator on top of another answers what the other does. -/
theorem Yields.map {σ τ X Y : Type} {next : σ → Option X × σ} {next' : τ → Option Y × τ} {f : σ → τ}
    {g : X → Y} (hnext : ∀ s, next' (f s) = ((next s).1.map g, f (next s).2)) {s : σ} {xs : List X}
    (h : Yields next s xs) : Yields next' (f s) (xs.map g) := by
  induction xs generalizing s with
  | nil =>
      rw [map_nil, Yields, hnext, h]
      rfl
  | cons x xs ih =>
      obtain ⟨hx, hrest⟩ := h
      rw [map_cons, Yields, hnext, hx]
      exact ⟨rfl, ih hrest⟩

/-- An output is what is made of a record in a slot. -/
def Comes (G : Graph P R A O E) (o : O) : Prop :=
  ∃ p i x acc acc', G.slot p i = .ok (some (.record x)) ∧ G.accept acc x = .ok (acc', o)

/-- **NO OUTPUT FROM NOWHERE**. -/
theorem comes_of_run [DecidableEq P] {o : O} (h : .ok o ∈ items (run G n w)) : Comes G o := by
  induction n generalizing w with
  | zero => nomatch h
  | succ n ih =>
      rw [run] at h
      cases hstep : step G w with
      | done =>
          rw [hstep] at h
          nomatch h
      | fail e =>
          rw [hstep] at h
          nomatch mem_singleton.mp h
      | go w' out =>
          rw [hstep] at h
          dsimp only at h
          rw [items_append] at h
          rcases mem_append.mp h with h | h
          · obtain ⟨o', ho', heq⟩ := mem_map.mp h
            cases heq
            obtain ⟨p, i, below, -, hcases⟩ := step_go G hstep
            rcases hcases with ⟨-, rfl, -⟩ | ⟨x, acc, o'', hslot, haccept, rfl, -⟩ |
              ⟨c, -, -, -, rfl, -⟩
            · nomatch ho'
            · cases mem_singleton.mp ho'
              exact ⟨p, i, x, _, acc, hslot, haccept⟩
            · nomatch ho'
          · exact ih h

end PageWalk
