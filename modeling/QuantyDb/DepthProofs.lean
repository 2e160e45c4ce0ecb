import QuantyDb.SplitProofs

/-! # Leaves at one depth

    Every leaf of a tree that was only ever inserted into is at the same depth.
    A deletion keeps that as long as no branch below the root is left with a
    single child, because such a branch gives way to its child, and its
    neighbours stay branches.  Once a leaf stands beside a branch, the next
    merge that is offered to either of them finds siblings of different kinds.

    `thick` is the condition that keeps this from happening: below the root, a
    branch on the way to the key has two separators to lose. -/

namespace QuantyDepth

open QuantyKey QuantyPage QuantyPager QuantyPagerInv QuantyBtree QuantyTree QuantyTreeMap List Fan
open Tree
open QuantyTreeFits QuantyBtreeSim QuantyOverflow QuantyBtreeMap QuantyBtreeRun QuantySplit CowHeap

/-- Every leaf is this far down. -/
def Uniform : Nat → Tree → Prop
  | 0, .leaf _ => True
  | 0, .branch _ _ => False
  | _ + 1, .leaf _ => False
  | n + 1, .branch f es => Uniform n f ∧ ∀ e ∈ es, Uniform n e.2

/-- Every branch on the way to the key has at least two separators. -/
def thick (key : Key) : Tree → Bool
  | .leaf _ => true
  | .branch f es =>
      decide (2 ≤ es.length)
        && (match Fan.rank key es with
          | 0 => thick key f
          | i + 1 => thickAt es i)
where
  thickAt : List (Key × Tree) → Nat → Bool
    | [], _ => true
    | (_, t) :: _, 0 => thick key t
    | _ :: rest, i + 1 => thickAt rest i

/-- The same for the branches strictly below the root. -/
def thickBelow (key : Key) : Option Tree → Bool
  | none => true
  | some (.leaf _) => true
  | some (.branch f es) => thick key (branchChild f es key)

variable {key : Key} {f t : Tree} {es : List (Key × Tree)} {b : Batch}
  {L : FreePages} {root : PageId} {o : Option Located}

theorem thick_branch : thick key (.branch f es) = true
      ↔ 2 ≤ es.length ∧ thick key (branchChild f es key) = true := by
  have hchild : (match Fan.rank key es with
      | 0 => thick key f
      | i + 1 => thick.thickAt key es i) = thick key (branchChild f es key) := by
    rw [branchChild]
    have hle := rank_le_length key es
    split
    next h0 => rw [h0]; rfl
    next i hi =>
      rw [hi]
      exact at_child (by simp [thick.thickAt]) (by simp [thick.thickAt]) f es (by omega)
  rw [thick, hchild, Bool.and_eq_true, decide_eq_true_eq]

/-! ## Insertion -/

section Insert

variable {ps n : Nat} {key : Key} {v : ValueRef}

/-- What an insertion leaves has its leaves at this depth. -/
def InsertedUniform (n : Nat) : Inserted → Prop
  | .done t => Uniform n t
  | .split l _ r => Uniform n l ∧ Uniform n r
  | .duplicate => True
  | .overrun => True

theorem halves_uniform {l r : Tree} {sep : Key} (hl : Uniform n l) (hr : Uniform n r) :
    InsertedUniform n (halves ps l sep r) := by
  unfold halves
  split
  · exact ⟨hl, hr⟩
  · trivial

theorem closeLeaf_uniform (es : List (Key × ValueRef)) : InsertedUniform 0 (closeLeaf ps es) := by
  unfold closeLeaf
  split
  · trivial
  · split
    · trivial
    · split
      · trivial
      · exact halves_uniform trivial trivial

theorem closeBranch_uniform (hf : Uniform n f) (hes : ∀ e ∈ es, Uniform n e.2) :
    InsertedUniform (n + 1) (closeBranch ps f es) := by
  unfold closeBranch
  split
  · exact ⟨hf, hes⟩
  · split
    · trivial
    · split
      · trivial
      · next sep rf rest hdrop =>
        have hright : ∀ e ∈ (sep, rf) :: rest, Uniform n e.2 := fun e he =>
          hes e (mem_of_mem_drop (hdrop ▸ he))
        refine halves_uniform ⟨hf, fun e he => hes e (mem_of_mem_take he)⟩
          ⟨hright (sep, rf) (mem_cons_self ..), fun e he =>
            hright e (.tail _ he)⟩

/-- **INSERTION KEEPS THE DEPTH**. -/
theorem insert_uniform (ps : Nat) (key : Key) (v : ValueRef) (u : Bool) (h : Uniform n t) :
    InsertedUniform n (t.insert ps key v u) := by
  induction t using descend key generalizing n with
  | hleaf es =>
      cases n with
      | succ n => exact h.elim
      | zero =>
          rw [Tree.insert]
          split
          · trivial
          · exact closeLeaf_uniform _
  | hbranch f es ih =>
      cases n with
      | zero => exact h.elim
      | succ n =>
          have hchild := ih (child_of_forall h.1 h.2 _)
          rw [insert_branch]
          cases hr : (branchChild f es key).insert ps key v u with
          | duplicate => trivial
          | overrun => trivial
          | done c =>
              rw [hr] at hchild
              exact setChild_forall h.1 h.2 hchild (Fan.rank key es)
          | split l sep r =>
              rw [hr] at hchild
              obtain ⟨hf', hes'⟩ := setChild_forall h.1 h.2 hchild.1 (Fan.rank key es)
              refine closeBranch_uniform hf' fun e he => ?_
              rcases eq_or_mem_of_mem_insertIdx he with rfl | hmem
              · exact hchild.2
              · exact hes' e hmem

/-- A tree that may be empty, with its leaves at one depth. -/
def Level (o : Option Tree) : Prop := ∀ t, o = some t → ∃ n, Uniform n t

theorem level_none : Level none := nofun

theorem insertTop_level {o : Option Tree} {s : Tree} (h : Level o)
    (hs : insertTop ps key v o = some s) : Level (some s) := by
  rintro _ ⟨rfl⟩
  cases o with
  | none =>
      simp only [insertTop] at hs
      split at hs
      · cases hs; exact ⟨0, trivial⟩
      · cases hs
  | some t =>
      obtain ⟨n, hn⟩ := h t rfl
      have hins := insert_uniform ps key v false hn
      simp only [insertTop, plant] at hs
      split at hs
      · next hr => cases hs; rw [hr] at hins; exact ⟨n, hins⟩
      · next l sep r hr =>
        rw [hr] at hins
        split at hs
        · cases hs
          refine ⟨n + 1, hins.1, fun e he => ?_⟩
          obtain rfl := mem_singleton.mp he
          exact hins.2
        · cases hs
      · cases hs
      · cases hs

end Insert

/-! ## Deletion -/

section Delete

variable {n : Nat} (ps : Nat) (key : Key)

/-- Neighbours of one depth are of one kind. -/
theorem mergeTrees_uniform (sep : Key) {l r : Tree} (hl : Uniform n l) (hr : Uniform n r) :
    ∃ m, mergeTrees sep l r = some m ∧ Uniform n m := by
  cases n with
  | zero =>
      cases l with
      | branch lf les => exact hl.elim
      | leaf les =>
          cases r with
          | branch rf res => exact hr.elim
          | leaf res => exact ⟨_, rfl, trivial⟩
  | succ n =>
      cases l with
      | leaf les => exact hl.elim
      | branch lf les =>
          cases r with
          | leaf res => exact hr.elim
          | branch rf res =>
              refine ⟨_, rfl, hl.1, fun e he => ?_⟩
              rcases mem_append.mp he with he | he
              · exact hl.2 e he
              · rcases mem_cons.mp he with rfl | he
                · exact hr.1
                · exact hr.2 e he

/-- Offering a merge among children of one depth: it never fails, and takes at
    most one separator. -/
theorem mergeChild_uniform (hf : Uniform n f) (hes : ∀ e ∈ es, Uniform n e.2) (idx : Nat) :
    ∃ f' es', mergeChild ps f es idx = some (f', es') ∧ Uniform n f'
      ∧ (∀ e ∈ es', Uniform n e.2) ∧ es.length ≤ es'.length + 1 := by
  unfold mergeChild joinPair
  split
  · exact ⟨f, es, rfl, hf, hes, Nat.le_succ _⟩
  · split
    · exact ⟨f, es, rfl, hf, hes, Nat.le_succ _⟩
    · next sep right hget =>
      obtain ⟨m, hm, hmu⟩ := mergeTrees_uniform sep
        (child_of_forall hf hes (mergeAt es.length idx)) (hes _ (mem_of_getElem? hget))
      simp only [hm]
      split
      · exact ⟨f, es, rfl, hf, hes, Nat.le_succ _⟩
      · obtain ⟨hf', hes'⟩ := setChild_forall hf hes hmu (mergeAt es.length idx)
        refine ⟨_, _, rfl, hf', fun e he => hes' e (mem_of_mem_eraseIdx he), ?_⟩
        have hlen : (Fan.setChild f es (mergeAt es.length idx) m).2.length = es.length := by
          simpa using congrArg List.length (keys_setChild f es (mergeAt es.length idx) m)
        have := length_eraseIdx_add_one
          (show mergeAt es.length idx < (Fan.setChild f es (mergeAt es.length idx) m).2.length by
            rw [hlen]; exact (List.getElem?_eq_some_iff.mp hget).1)
        omega

theorem collapse_of_pos (h : 0 < es.length) : collapse f es = .branch f es := by
  cases es with
  | nil => exact absurd h (Nat.lt_irrefl 0)
  | cons e es => rfl

/-- The children of a branch after its child at `idx` was deleted from: of the
    same depth, and at most one separator fewer. -/
theorem pruneChild_uniform {idx : Nat} (hf : Uniform n f) (hes : ∀ e ∈ es, Uniform n e.2)
    (hidx : idx ≤ es.length) {r : Removed} (hmixed : r ≠ .mixed)
    (hr : ∀ c, r = .updated c → Uniform n c) : pruneChild ps f es idx r = .notFound
      ∨ (pruneChild ps f es idx r = .emptied ∧ es = [])
      ∨ ∃ f' es', pruneChild ps f es idx r = .updated (collapse f' es') ∧ Uniform n f'
        ∧ (∀ e ∈ es', Uniform n e.2) ∧ es.length ≤ es'.length + 1 := by
  cases r with
  | notFound => exact .inl rfl
  | mixed => exact absurd rfl hmixed
  | updated c =>
      obtain ⟨hf', hes'⟩ := setChild_forall hf hes (hr c rfl) idx
      obtain ⟨f', es', hmerge, hf'', hes'', hlen⟩ := mergeChild_uniform ps hf' hes' idx
      refine .inr (.inr ⟨f', es', by simp only [pruneChild, hmerge], hf'', hes'', ?_⟩)
      have hkeys := congrArg List.length (keys_setChild f es idx c)
      simp only [length_map] at hkeys
      omega
  | emptied =>
      cases idx with
      | zero =>
          cases es with
          | nil => exact .inr (.inl ⟨rfl, rfl⟩)
          | cons e rest =>
              exact .inr (.inr ⟨e.2, rest, rfl, hes e (mem_cons_self ..),
                fun e' he' => hes e' (.tail _ he'), le_rfl⟩)
      | succ i =>
          refine .inr (.inr ⟨f, es.eraseIdx i, rfl, hf,
            fun e he => hes e (mem_of_mem_eraseIdx he), ?_⟩)
          have := length_eraseIdx_add_one (show i < es.length from hidx)
          omega

/-- **BELOW THE ROOT** a deletion along thick branches keeps the depth, and
    finds no siblings of different kinds. -/
theorem delete_uniform (h : Uniform n t) (hthick : thick key t = true) :
    t.delete ps key ≠ .mixed ∧ ∀ t', t.delete ps key = .updated t' → Uniform n t' := by
  induction t using descend key generalizing n with
  | hleaf es =>
      cases n with
      | succ n => exact h.elim
      | zero =>
          rw [delete]
          split
          · split
            · exact ⟨by rintro ⟨⟩, by rintro _ ⟨⟩⟩
            · refine ⟨by rintro ⟨⟩, ?_⟩
              rintro _ ⟨rfl⟩
              trivial
          · exact ⟨by rintro ⟨⟩, by rintro _ ⟨⟩⟩
  | hbranch f es ih =>
      cases n with
      | zero => exact h.elim
      | succ n =>
          obtain ⟨hlen, hchild⟩ := thick_branch.mp hthick
          obtain ⟨hmixed, hupd⟩ := ih (child_of_forall h.1 h.2 _) hchild
          rw [delete_branch]
          rcases pruneChild_uniform ps h.1 h.2 (rank_le_length key es) hmixed hupd with
            heq | ⟨heq, -⟩ | ⟨f', es', heq, hf', hes', hlen'⟩
          · rw [heq]; exact ⟨by rintro ⟨⟩, by rintro _ ⟨⟩⟩
          · rw [heq]; exact ⟨by rintro ⟨⟩, by rintro _ ⟨⟩⟩
          · rw [heq, collapse_of_pos (by omega)]
            refine ⟨by rintro ⟨⟩, ?_⟩
            rintro _ ⟨rfl⟩
            exact ⟨hf', hes'⟩

/-- A key that is not there is not deleted. -/
theorem delete_of_absent (h : t.find key = none) : t.delete ps key = .notFound := by
  induction t using descend key with
  | hleaf es =>
      rw [find] at h
      rw [delete, h]
      rfl
  | hbranch f es ih =>
      rw [find_branch] at h
      rw [delete_branch, ih h]
      rfl

/-- **AT THE ROOT** a deletion may lose a level, and the leaves stay level. -/
theorem deleteTop_level {o : Option Tree} (h : Level o)
    (hthick : (topFind key o).isSome = true → thickBelow key o = true) :
    ∃ s found, deleteTop ps key o = some (s, found) ∧ Level s := by
  cases o with
  | none => exact ⟨none, false, rfl, h⟩
  | some t =>
      obtain ⟨n, hn⟩ := h t rfl
      cases hfind : t.find key with
      | none =>
          refine ⟨some t, false, ?_, h⟩
          rw [deleteTop, delete_of_absent ps key hfind]
          rfl
      | some w =>
          have hbelow := hthick (by rw [show topFind key (some t) = some w from hfind]; rfl)
          cases t with
          | leaf es =>
              obtain ⟨hmixed, hupd⟩ := delete_uniform ps key hn rfl
              cases hr : (leaf es).delete ps key with
              | notFound => exact ⟨_, _, by rw [deleteTop, hr]; rfl, h⟩
              | mixed => exact absurd hr hmixed
              | emptied => exact ⟨_, _, by rw [deleteTop, hr]; rfl, level_none⟩
              | updated t' =>
                  refine ⟨_, _, by rw [deleteTop, hr]; rfl, ?_⟩
                  rintro _ ⟨rfl⟩
                  exact ⟨n, hupd t' hr⟩
          | branch f es =>
              cases n with
              | zero => exact hn.elim
              | succ n =>
                  have hchild : Uniform n (branchChild f es key) :=
                    child_of_forall hn.1 hn.2 _
                  obtain ⟨hmixed, hupd⟩ := delete_uniform ps key hchild hbelow
                  rw [deleteTop, delete_branch]
                  rcases pruneChild_uniform ps hn.1 hn.2 (rank_le_length key es)
                    hmixed hupd with heq | ⟨heq, -⟩ | ⟨f', es', heq, hf', hes', -⟩
                  · exact ⟨_, _, by rw [heq]; rfl, h⟩
                  · exact ⟨_, _, by rw [heq]; rfl, level_none⟩
                  · refine ⟨_, _, by rw [heq]; rfl, ?_⟩
                    rintro _ ⟨rfl⟩
                    cases es' with
                    | nil => exact ⟨n, hf'⟩
                    | cons e rest => exact ⟨n + 1, hf', hes'⟩

end Delete

/-! ## Runs -/

/-- **RUNS** from the empty tree.  A `put` has a legal key and returns.  A
    `remove` of a key that is there finds thick branches below the root.  Between
    calls the tree may come into another batch, by a commit or by work on other
    pages. -/
inductive Run : PageId → Batch → Prop
  | start {b : Batch} {L : FreePages} (hps : validPageSize b.pageSize = true)
      (hs : Sound b L) : Run NIL_PAGE b
  | put {root root' : PageId} {b b' : Batch} {key : Key} {value : Bytes} (h : Run root b)
      (hk : 0 < key.length) (hk' : key.length ≤ maxKeyLen b.pageSize)
      (hcall : put root key value b = .ok root' b') : Run root' b'
  | remove {root root' : PageId} {b b' : Batch} {key : Key} {found : Bool} {o : Option Located}
      (h : Run root b) (hspell : Spells b root o)
      (hthick : (topFind key (o.map Located.shape)).isSome = true →
        thickBelow key (o.map Located.shape) = true)
      (hcall : remove root key b = .ok (root', found) b') : Run root' b'
  | carry {root : PageId} {b b' : Batch} {L' : FreePages} {o : Option Located}
      (h : Run root b) (hspell : Spells b root o) (hps : b'.pageSize = b.pageSize)
      (hs : Sound b' L') (hh : Holds (view b' L') (cellsOf o)) : Run root b'

/-- What holds along every run. -/
structure Grown (b : Batch) (L : FreePages) (o : Option Located) : Prop where
  pageSize : 512 ≤ b.pageSize
  sound : Sound b L
  holds : Holds (view b L) (cellsOf o)
  ordered : ∀ t, o = some t → t.shape.Ordered
  fits : ∀ t, o = some t → t.shape.Fits b.pageSize
  level : Level (o.map Located.shape)

theorem Grown.spells (h : Grown b L o) : Spells b (rootOf o) o :=
  ⟨rfl, fun _ hc => Holds.pageBytes h.holds hc⟩

theorem Grown.put {b' : Batch} {value : Bytes} (h : Grown b L o) (hk : 0 < key.length)
    (hk' : key.length ≤ maxKeyLen b.pageSize)
    (hcall : put (rootOf o) key value b = .ok root b') :
    ∃ o' L', rootOf o' = root ∧ Grown b' L' o' := by
  obtain ⟨v, W, -, -, hpost⟩ := put_post (o := o) (V := []) h.sound (by simpa using h.holds)
    (fun t ht => inOrder_of_ordered (h.ordered t ht)) h.fits h.pageSize hk hk' value
  rw [hcall] at hpost
  cases hins : insertTop b.pageSize key v (o.map Located.shape) with
  | none =>
      rw [hins] at hpost
      obtain ⟨what, b₁, hpanic⟩ := hpost
      nomatch hpanic
  | some s =>
      rw [hins] at hpost
      obtain ⟨t, b₁, L₁, hok, rfl, hw, -⟩ := hpost
      cases hok
      have hps : b'.pageSize = b.pageSize := hw.stays.pageSize
      refine ⟨some t, L₁, rfl, ⟨hps ▸ h.pageSize, hw.sound, hw.holds.sublist
        (sublist_append_left _ _), ?_, ?_, insertTop_level h.level hins⟩⟩
      · rintro _ ⟨rfl⟩
        exact (insertTop_spec (forall_shape h.ordered) hins).1
      · rintro _ ⟨rfl⟩
        rw [hps]
        exact insertTop_fits (forall_shape h.fits) hins

/-- A `remove` along thick branches returns, and leaves a tree that is level. -/
theorem Grown.remove (h : Grown b L o) (hthick : (topFind key (o.map Located.shape)).isSome = true →
      thickBelow key (o.map Located.shape) = true) :
    ∃ o' found b' L', remove (rootOf o) key b = .ok (rootOf o', found) b'
      ∧ Grown b' L' o' := by
  by_cases hk : key.length ≤ maxKeyLen b.pageSize
  · have hpost := remove_post (o := o) (V := []) h.sound (by simpa using h.holds)
      h.ordered h.fits hk
    obtain ⟨s, found, hdel, hlevel⟩ := deleteTop_level b.pageSize key h.level hthick
    rw [hdel] at hpost
    obtain ⟨o', b₁, L₁, hcall, rfl, hw⟩ := hpost
    have hps : b₁.pageSize = b.pageSize := hw.stays.pageSize
    have hspec := deleteTop_spec (forall_shape h.ordered) hdel
    refine ⟨o', found, b₁, L₁, hcall, ⟨hps ▸ h.pageSize, hw.sound,
      hw.holds.sublist (sublist_append_left _ _), ?_, ?_, hlevel⟩⟩
    · rintro t rfl
      exact hspec.1 _ rfl
    · rintro t rfl
      rw [hps]
      exact deleteTop_fits (forall_shape h.fits) hdel _ rfl
  · refine ⟨o, false, b, L, ?_, h⟩
    unfold QuantyBtree.remove
    rw [get_bind, if_pos (.inr (not_le.mp hk))]
    rfl

theorem Run.grown (h : Run root b) : ∃ o L, rootOf o = root ∧ Grown b L o := by
  induction h with
  | start hps hs =>
      exact ⟨none, _, rfl, (le_of_validPageSize hps).1, hs, Holds.nil _, nofun,
        nofun, level_none⟩
  | put _ hk hk' hcall ih =>
      obtain ⟨o, L, rfl, hg⟩ := ih
      exact hg.put hk hk' hcall
  | remove _ hspell hthick hcall ih =>
      obtain ⟨o, L, rfl, hg⟩ := ih
      obtain rfl := hspell.unique hg.sound hg.spells
      obtain ⟨o', found, b₁, L₁, hcall', hg'⟩ := hg.remove hthick
      cases hcall'.symm.trans hcall
      exact ⟨o', L₁, rfl, hg'⟩
  | carry _ hspell hps hs hh ih =>
      obtain ⟨o, L, rfl, hg⟩ := ih
      obtain rfl := hspell.unique hg.sound hg.spells
      exact ⟨_, _, rfl, hps ▸ hg.pageSize, hs, hh, hg.ordered, hps ▸ hg.fits, hg.level⟩

/-- **LEAVES STAY LEVEL AND REMOVE RETURNS**, in every state that such a run
    reaches: all leaves of the tree are at one depth, and a `remove` whose way
    is thick below the root returns. -/
theorem run_level_remove_returns {root : PageId} {b : Batch} (h : Run root b) :
    ∃ o, Spells b root o ∧ Level (o.map Located.shape)
      ∧ ∀ key, ((topFind key (o.map Located.shape)).isSome = true →
          thickBelow key (o.map Located.shape) = true) →
        ∃ root' found b', remove root key b = .ok (root', found) b' := by
  obtain ⟨o, L, rfl, hg⟩ := h.grown
  refine ⟨o, hg.spells, hg.level, fun key hthick => ?_⟩
  obtain ⟨o', found, b', -, hcall, -⟩ := hg.remove hthick
  exact ⟨_, found, b', hcall⟩

/-- A run on fixed calls, as far as each meets its condition. -/
def thickRun : List Call → PageId → Batch → Option (PageId × Batch)
  | [], root, b => some (root, b)
  | .put key value :: rest, root, b =>
      if 0 < key.length ∧ key.length ≤ maxKeyLen b.pageSize then
        match put root key value.1 b with
        | .ok root b => thickRun rest root b
        | .error _ _ => none
      else none
  | .remove key :: rest, root, b => do
      let o ← readRoot b root
      if (topFind key (o.map Located.shape)).isSome = true →
          thickBelow key (o.map Located.shape) = true then
        match remove root key b with
        | .ok (root, _) b => thickRun rest root b
        | .error _ _ => none
      else none
  | .putUnique _ _ :: _, _, _ => none

theorem Run.thickRun {calls : List Call} {root' : PageId} {b' : Batch} (h : Run root b)
    (hrun : thickRun calls root b = some (root', b')) : Run root' b' := by
  induction calls generalizing root b with
  | nil =>
      obtain ⟨rfl, rfl⟩ := Prod.mk.inj (Option.some.inj hrun)
      exact h
  | cons c rest ih =>
      cases c with
      | put key value =>
          rw [QuantyDepth.thickRun] at hrun
          split at hrun
          · next hk =>
            split at hrun
            · next hcall => exact ih (.put h hk.1 hk.2 hcall) hrun
            · nomatch hrun
          · nomatch hrun
      | remove key =>
          obtain ⟨o, hread, hrun⟩ := Option.bind_eq_some_iff.mp hrun
          split at hrun
          · next hthick =>
            split at hrun
            · next hcall => exact ih (.remove h (spells_of_readRoot hread) hthick hcall) hrun
            · nomatch hrun
          · nomatch hrun
      | putUnique key value => nomatch hrun

/-- Seventeen entries under two branches, and the first two go. -/
def thinningCalls : List Call :=
  evenPuts 17 ++ [.remove (repeated 64 1), .remove (repeated 64 2)]

/-- The left branch has lost a leaf and is thick still: the leaves are level,
    and the `remove` of the next entry returns. -/
theorem run_level_remove_returns_thinning :
    ∃ root b o, thickRun thinningCalls NIL_PAGE (Pager.initial 512 0).begin = some (root, b)
      ∧ Spells b root o ∧ overBranches (o.map Located.shape) = true
      ∧ (topFind (repeated 64 3) (o.map Located.shape)).isSome = true
      ∧ Level (o.map Located.shape)
      ∧ ∃ root' found b', remove root (repeated 64 3) b = .ok (root', found) b' := by
  have hcheck : ((thickRun thinningCalls NIL_PAGE (Pager.initial 512 0).begin).any fun x =>
      (readRoot x.2 x.1).any fun o => overBranches (o.map Located.shape)
        && (topFind (repeated 64 3) (o.map Located.shape)).isSome
        && thickBelow (repeated 64 3) (o.map Located.shape)) = true := by
    decide +kernel
  obtain ⟨⟨root, b⟩, hrun, hcheck⟩ := (Option.any_eq_true _ _).mp hcheck
  obtain ⟨o, hread, hcheck⟩ := (Option.any_eq_true _ _).mp hcheck
  simp only [Bool.and_eq_true] at hcheck
  obtain ⟨⟨hover, hthere⟩, hthick⟩ := hcheck
  have hstart : Run NIL_PAGE (Pager.initial 512 0).begin :=
    .start (by decide) (sound_begin (freeListSound_initial 512 0))
  have hreached := hstart.thickRun hrun
  obtain ⟨o', hspells, hlevel, hremove⟩ := run_level_remove_returns hreached
  obtain ⟨_, _, -, hg⟩ := hreached.grown
  obtain rfl := (spells_of_readRoot hread).unique hg.sound hspells
  exact ⟨root, b, o, hrun, hspells, hover, hthere, hlevel, hremove _ fun _ => hthick⟩

/-- Seventeen entries, two to a leaf, under two branches; then the six oldest
    go, which leaves the left branch a single leaf, and the leaf shrinks. -/
def agedCalls : List Call :=
  evenPuts 17 ++ (List.range 6).map (fun i => .remove (repeated 64 (UInt8.ofNat (i + 1))))
    ++ [.put (repeated 64 7) ⟨[], Nat.zero_le _⟩]

/-- **A REMOVE THAT REPORTS CORRUPTION**: every call before it had a legal key
    and returned. -/
theorem remove_reports_corruption :
    ∃ root answers b₁ page b₂, runCalls agedCalls NIL_PAGE (Pager.initial 512 0).begin
        = .ok (root, answers) b₁
      ∧ remove root (repeated 64 8) b₁
        = .error (.corrupted page "sibling nodes of different kinds") b₂ := by
  have hcheck : (match runCalls agedCalls NIL_PAGE (Pager.initial 512 0).begin with
      | .error _ _ => false
      | .ok x b₁ =>
          match remove x.1 (repeated 64 8) b₁ with
          | .ok _ _ => false
          | .error e _ => decide (e = .corrupted (some 6) "sibling nodes of different kinds"))
      = true := by
    decide +kernel
  cases hrun : runCalls agedCalls NIL_PAGE (Pager.initial 512 0).begin with
  | error e b₁ => rw [hrun] at hcheck; nomatch hcheck
  | ok x b₁ =>
      obtain ⟨root, answers⟩ := x
      rw [hrun] at hcheck
      simp only at hcheck
      cases hcall : remove root (repeated 64 8) b₁ with
      | ok _ _ => rw [hcall] at hcheck; nomatch hcheck
      | error e b₂ =>
          rw [hcall] at hcheck
          obtain rfl := of_decide_eq_true hcheck
          exact ⟨root, answers, b₁, some 6, b₂, rfl, hcall⟩

end QuantyDepth
