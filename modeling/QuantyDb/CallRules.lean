import QuantyDb.TreeCalls

/-! # What page calls keep, tree calls keep

    A call on a tree is put together from a few calls on pages: loading a
    node, allocating, encoding a node into a page, writing a part of a value,
    and inserting into a leaf in place.  A relation between the state before
    and the state after that holds across each of those, whether it answers or
    fails, holds across `put`, `put_unique` and `remove`. -/

namespace QuantyCalls

open QuantyKey QuantyPage QuantyPager QuantyTreeCalls
open QuantyBtree (Insert Delete)

variable {σ α β : Type} {R : σ → σ → Prop} {P : PageOps σ}

/-- The state after a call, whether the call failed or not. -/
def afterward : EStateM.Result Error σ α → σ
  | .ok _ s => s
  | .error _ s => s

/-- Across a call the states are related, whatever the call answers. -/
def Respects (R : σ → σ → Prop) (m : EStateM Error σ α) : Prop := ∀ s, R s (afterward (m s))

/-- A relation that lasts across the calls on pages. -/
structure Lasting (R : σ → σ → Prop) (P : PageOps σ) : Prop where
  refl : ∀ s, R s s
  trans : ∀ s s' s'', R s s' → R s' s'' → R s s''
  loadNode : ∀ page, Respects R (P.loadNode page)
  decodePage : ∀ page, Respects R (P.decodePage page)
  allocate : ∀ ty, Respects R (P.allocate ty)
  encodeInto : ∀ id n, Respects R (P.encodeInto id n)
  writePart : ∀ id next part, Respects R (P.writePart id next part)
  insertInPlace : ∀ page key v unique, Respects R (P.insertInPlace page key v unique)

/-! ## Sequencing -/

theorem respects_ite {c : Prop} [Decidable c] {m m' : EStateM Error σ α} (hm : Respects R m)
    (hm' : Respects R m') : Respects R (if c then m else m') := by
  split
  · exact hm
  · exact hm'

/-- One call after another: a failure of the first is where it stops. -/
theorem Respects.bind {m : EStateM Error σ α} {f : α → EStateM Error σ β} (hm : Respects R m)
    (hR : Lasting R P) (hf : ∀ a, Respects R (f a)) : Respects R (m >>= f) := by
  intro s
  have hs := hm s
  show R s (afterward (EStateM.bind m f s))
  unfold EStateM.bind
  cases hr : m s with
  | ok a s' =>
      rw [hr] at hs
      exact hR.trans s s' _ hs (hf a s')
  | error e s' =>
      rw [hr] at hs
      exact hs

section Calls

variable (hR : Lasting R P)

include hR

/-- A call that leaves the state alone. -/
theorem respects_still {m : EStateM Error σ α} (h : ∀ s, afterward (m s) = s) : Respects R m := by
  intro s
  rw [h s]
  exact hR.refl s

theorem respects_pure (a : α) : Respects R (pure a : EStateM Error σ α) :=
  respects_still hR fun _ => rfl

/-- A failure of its own leaves the state where it was. -/
theorem respects_throw (e : Error) : Respects R (throw e : EStateM Error σ α) :=
  respects_still hR fun _ => rfl

theorem respects_get : Respects R (get : EStateM Error σ σ) := respects_still hR fun _ => rfl

/-- What is only read, whether found or not. -/
theorem respects_liftRead (x : Except Error α) : Respects R (liftRead x) := by
  refine respects_still hR fun s => ?_
  cases x <;> rfl

/-! ## Calls on a tree -/

/-- A page of this batch is taken as it is, any other is allocated. -/
theorem respects_writablePage (old : Option PageId) (ty : PageType) :
    Respects R (writablePage P old ty) := by
  intro s
  unfold writablePage
  cases old with
  | none => exact hR.allocate ty s
  | some id =>
      dsimp only
      split
      · exact hR.refl s
      · exact hR.allocate ty s

/-- Copy on write: a page to write to, then the node into it. -/
theorem respects_writeNode (old : Option PageId) (n : Node) : Respects R (writeNode P old n) :=
  (respects_writablePage hR old _).bind hR fun id =>
    (hR.encodeInto id n).bind hR fun _ => respects_pure hR id

/-- The left half goes over the old page, the right half to a new one. -/
theorem respects_writeHalves (old : PageId) (left : Node) (sep : Key) (right : Node) :
    Respects R (writeHalves P old left sep right) :=
  (respects_writeNode hR _ left).bind hR fun _ =>
    (respects_writeNode hR _ right).bind hR fun _ => respects_pure hR _

/-- A leaf that fits, one that is cut, and one that cannot be. -/
theorem respects_finishLeaf (old : PageId) (es : List (Key × ValueRef)) :
    Respects R (finishLeaf P old es) := by
  refine (respects_get hR).bind hR fun b =>
    respects_ite ((respects_writeNode hR _ _).bind hR fun _ =>
    respects_pure hR _) (respects_ite (respects_throw hR _) ?_)
  dsimp only
  split
  · exact respects_throw hR _
  · exact respects_writeHalves hR _ _ _ _

/-- The same for a branch, which needs three separators to be cut. -/
theorem respects_finishBranch (old f : PageId) (es : List (Key × PageId)) :
    Respects R (finishBranch P old f es) := by
  refine (respects_get hR).bind hR fun b =>
    respects_ite ((respects_writeNode hR _ _).bind hR fun _ =>
    respects_pure hR _) (respects_ite (respects_throw hR _) ?_)
  dsimp only
  split
  · exact respects_throw hR _
  · exact respects_writeHalves hR _ _ _ _

/-- What came back from a child goes into its parent. -/
theorem respects_graft (page f : PageId) (es : List (Key × PageId)) (idx : Nat) (r : Insert) :
    Respects R (graft P page f es idx r) := by
  cases r with
  | duplicate => exact respects_pure hR _
  | done c => exact (respects_writeNode hR _ _).bind hR fun _ => respects_pure hR _
  | split left sep right => exact respects_finishBranch hR _ _ _

/-- A duplicate is left alone; anything else closes the leaf again. -/
theorem respects_updateLeaf (page : PageId) (key : Key) (v : ValueRef) (unique : Bool)
    (es : List (Key × ValueRef)) : Respects R (updateLeaf P page key v unique es) := by
  unfold updateLeaf
  split
  · exact respects_ite (respects_pure hR _) (respects_finishLeaf hR _ _)
  · exact respects_finishLeaf hR _ _

/-- The descent, by induction on its fuel: the branch is looked at in place
    first, and decoded only where the child moved. -/
theorem respects_insertRec (key : Key) (v : ValueRef) (unique : Bool) (fuel : Nat)
    (page : PageId) : Respects R (insertRec P key v unique fuel page) := by
  induction fuel generalizing page with
  | zero => exact respects_throw hR _
  | succ fuel ih =>
      refine (respects_get hR).bind hR fun b => (respects_liftRead hR _).bind hR fun child => ?_
      cases child with
      | some child =>
          refine (ih child).bind hR fun result => respects_ite (respects_pure hR _)
            (respects_ite (respects_pure hR _) ((hR.loadNode page).bind hR fun n => ?_))
          cases n with
          | leaf es => exact respects_throw hR _
          | branch f es => exact respects_graft hR _ _ _ _ _
      | none =>
          refine (hR.insertInPlace page key v unique).bind hR fun r => ?_
          cases r with
          | some r => exact respects_pure hR _
          | none =>
              refine (hR.loadNode page).bind hR fun n => ?_
              cases n with
              | leaf es => exact respects_updateLeaf hR _ _ _ _ _
              | branch f es => exact (ih _).bind hR fun result => respects_graft hR _ _ _ _ _

/-- A root that was cut gets a branch over its halves. -/
theorem respects_newRoot (r : Insert) : Respects R (newRoot P r) := by
  cases r with
  | duplicate => exact respects_throw hR _
  | done root => exact respects_pure hR _
  | split left sep right => exact respects_writeNode hR _ _

/-- One page for each part of a value. -/
theorem respects_allocateEach (ty : PageType) (parts : List Bytes) :
    Respects R (allocateEach P ty parts) := by
  induction parts with
  | nil => exact respects_pure hR _
  | cons part rest ih =>
      exact (hR.allocate ty).bind hR fun _ => ih.bind hR fun _ => respects_pure hR _

/-- Each part goes to its page. -/
theorem respects_writeParts (parts : List Bytes) (ids : List PageId) :
    Respects R (writeParts P parts ids) := by
  induction parts generalizing ids with
  | nil => exact respects_pure hR _
  | cons part rest ih =>
      cases ids with
      | nil => exact respects_pure hR _
      | cons id ids => exact (hR.writePart id _ _).bind hR fun _ => ih ids

/-- A value too long for its leaf is written to pages of its own. -/
theorem respects_placeValue (value : Bytes) : Respects R (placeValue P value) :=
  (respects_get hR).bind hR fun _ => respects_ite
    ((respects_get hR).bind hR fun _ => (respects_allocateEach hR _ _).bind hR fun _ =>
      (respects_writeParts hR _ _).bind hR fun _ => respects_pure hR _)
    (respects_pure hR _)

theorem respects_checkKey (ps : Nat) (key : Key) : Respects R (checkKey ps key) :=
  respects_ite (respects_throw hR _) (respects_ite (respects_throw hR _) (respects_pure hR _))

/-- **PUT**: the check of the key, the value, the descent and the root. -/
theorem respects_put (root : PageId) (key : Key) (value : Bytes) :
    Respects R (put P root key value) := by
  refine (respects_get hR).bind hR fun b => (respects_checkKey hR _ _).bind hR fun _ =>
    (respects_placeValue hR value).bind hR fun v => ?_
  exact respects_ite (respects_writeNode hR _ _) ((respects_get hR).bind hR fun _ =>
    (respects_insertRec hR _ _ _ _ _).bind hR fun r => respects_newRoot hR r)

/-- **PUT UNIQUE**: a value that is too long looks its key up first. -/
theorem respects_putUnique (root : PageId) (key : Key) (value : Bytes) :
    Respects R (putUnique P root key value) := by
  have hput : Respects R (do return (← put P root key value, true)) :=
    (respects_put hR root key value).bind hR fun _ => respects_pure hR _
  refine (respects_get hR).bind hR fun b =>
    respects_ite ((respects_liftRead hR _).bind hR fun found => ?_)
    ((respects_checkKey hR _ _).bind hR fun _ => respects_ite hput ?_)
  · cases found with
    | none => exact hput
    | some _ => exact respects_pure hR _
  · refine (respects_insertRec hR _ _ _ _ _).bind hR fun r => ?_
    cases r with
    | duplicate => exact respects_pure hR _
    | done page => exact (respects_newRoot hR _).bind hR fun _ => respects_pure hR _
    | split left sep right => exact (respects_newRoot hR _).bind hR fun _ => respects_pure hR _

/-- Two neighbours are read, and written as one if they fit. -/
theorem respects_mergePair (f : PageId) (es : List (Key × PageId)) (li : Nat) :
    Respects R (mergePair P f es li) := by
  unfold mergePair
  split
  · exact respects_throw hR _
  · refine (hR.decodePage _).bind hR fun left => (hR.decodePage _).bind hR fun right => ?_
    split
    · exact respects_throw hR _
    · exact (respects_get hR).bind hR fun _ => respects_ite (respects_pure hR _)
        ((respects_writeNode hR _ _).bind hR fun _ => respects_pure hR _)

theorem respects_mergeUnderfullChild (f : PageId) (es : List (Key × PageId)) (idx : Nat) :
    Respects R (mergeUnderfullChild P f es idx) :=
  respects_ite (respects_pure hR _) ((hR.decodePage _).bind hR fun _ =>
    (respects_get hR).bind hR fun _ =>
      respects_ite (respects_pure hR _) (respects_mergePair hR _ _ _))

/-- A branch left without separators is its only child. -/
theorem respects_settleBranch (page f : PageId) (es : List (Key × PageId)) :
    Respects R (settleBranch P page f es) :=
  respects_ite (respects_pure hR _)
    ((respects_writeNode hR _ _).bind hR fun _ => respects_pure hR _)

/-- What came back from a child, by the three ways a deletion ends. -/
theorem respects_prune (page f : PageId) (es : List (Key × PageId)) (idx : Nat) (r : Delete) :
    Respects R (prune P page f es idx r) := by
  cases r with
  | notFound => exact respects_pure hR _
  | updated c =>
      exact (respects_mergeUnderfullChild hR _ _ _).bind hR fun _ => respects_settleBranch hR _ _ _
  | emptied =>
      cases idx with
      | zero =>
          cases es with
          | nil => exact respects_pure hR _
          | cons e rest => exact respects_settleBranch hR _ _ _
      | succ i => exact respects_settleBranch hR _ _ _

/-- The descent of a deletion, by induction on its fuel. -/
theorem respects_deleteRec (key : Key) (fuel : Nat) (page : PageId) :
    Respects R (deleteRec P key fuel page) := by
  induction fuel generalizing page with
  | zero => exact respects_throw hR _
  | succ fuel ih =>
      refine (hR.loadNode page).bind hR fun n => ?_
      cases n with
      | leaf es =>
          dsimp only
          split
          · exact respects_pure hR _
          · exact respects_ite (respects_pure hR _) ((respects_writeNode hR _ _).bind hR fun _ =>
              respects_pure hR _)
      | branch f es => exact (ih _).bind hR fun result => respects_prune hR _ _ _ _ _

/-- **REMOVE**: a root that was emptied is gone. -/
theorem respects_remove (root : PageId) (key : Key) : Respects R (remove P root key) := by
  refine (respects_get hR).bind hR fun b => respects_ite (respects_pure hR _)
    ((respects_deleteRec hR _ _ _).bind hR fun r => ?_)
  cases r <;> exact respects_pure hR _

end Calls

end QuantyCalls
